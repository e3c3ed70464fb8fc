import Fabriq.Projection.Applier

namespace Fabriq.Projection.GraphStore

open Core.Schema Core.Value Lib Lib.Assoc Projection.Applier List

structure NodeKey where
  label : String
  id : String
  deriving DecidableEq, Repr

structure Rel where
  type : String
  source : NodeKey
  target : NodeKey
  props : Fields

/-- A property graph; `MERGE` finds nodes by label and id. -/
structure Graph where
  nodes : List (NodeKey × Fields)
  rels : List Rel

def Graph.empty : Graph :=
  ⟨[], []⟩

def validIdent (s : String) : Bool :=
  match s.toList with
  | [] => false
  | first :: rest =>
    (first.isAlpha || first == '_') && decide (rest.length ≤ 63) &&
      rest.all fun c => c.isAlphanum || c == '_'

/-- `coalesce(x.version, 0) <= $version`. -/
def gate (props : Fields) (version : Int) : Bool :=
  match props.lookup columnVersion with
  | none | some .null => decide (0 ≤ version)
  | some (.num q) => decide (q ≤ version)
  | some _ => false

/-- What a property holds after it is set; null removes it. -/
def stored : Json → Option Json
  | .null => none
  | v => some v

def setProp (field : String × Json) (props : Fields) : Fields :=
  match stored field.2 with
  | none => Assoc.drop props field.1
  | some v => put props field.1 v

def setProps (fields props : Fields) : Fields :=
  fields.foldr setProp props

/-- The properties of a payload that are set: valid identifiers other than the id. -/
def settable (props : Fields) : Fields :=
  props.filter fun field => validIdent field.1 && field.1 != columnId

mutual

/-- Whether `cypherLiteral` has a text for the value: an object has none. -/
def cypherLiteral : Json → Bool
  | .arr elems => cypherLiterals elems
  | .obj _ => false
  | _ => true

def cypherLiterals : List Json → Bool
  | [] => true
  | v :: rest => cypherLiteral v && cypherLiterals rest

end

/-- Whether `cypherParams` renders the properties, each under the parameter `p_` and its name. -/
def cypherParams (props : Fields) : Bool :=
  props.all fun field => validIdent ("p_" ++ field.1) && cypherLiteral field.2

/-- `MERGE (n:Label {id: $id})`. -/
def mergeNode (nodes : List (NodeKey × Fields)) (key : NodeKey) : List (NodeKey × Fields) :=
  if (nodes.lookup key).isSome then nodes
  else put nodes key [(columnId, .str key.id)]

/-- `MERGE` of a relationship: those that match are changed, or a new one is made. -/
def mergeRel (rels : List Rel) (found : Rel → Bool) (new : Rel) (set : Rel → Rel) : List Rel :=
  if rels.any found then rels.map fun r => if found r then set r else r
  else rels ++ [set new]

def hasId (id : String) (r : Rel) : Bool :=
  match r.props.lookup columnId with
  | some (.str s) => s == id
  | _ => false

def nodeUpsert (g : Graph) (key : NodeKey) (props : Fields) (version : Int) : Graph :=
  let nodes := mergeNode g.nodes key
  let held := (nodes.lookup key).getD []
  if gate held version then
    { g with nodes := put nodes key (setProps (settable props) held) }
  else { g with nodes := nodes }

/-- Gated on the source node; other targets of the same type are dropped. -/
def edgeUpsert (g : Graph) (rel : String) (source target : NodeKey) (version : Int) : Graph :=
  match g.nodes.lookup source with
  | none => g
  | some held =>
    if gate held version then
      let rels := mergeRel g.rels
        (fun r => r.type == rel && r.source == source && r.target == target)
        ⟨rel, source, target, []⟩
        fun r => { r with props := put r.props columnVersion (.num version) }
      { nodes := mergeNode g.nodes target
        rels := rels.filter fun r =>
          !(r.type == rel && r.source == source && r.target.id != target.id) }
    else g

/-- `DETACH DELETE`, not gated. -/
def nodeDelete (g : Graph) (key : NodeKey) : Graph where
  nodes := Assoc.drop g.nodes key
  rels := g.rels.filter fun r => r.source != key && r.target != key

def edgeDelete (g : Graph) (rel : String) (source : NodeKey) (version : Int) : Graph :=
  match g.nodes.lookup source with
  | none => g
  | some held =>
    if gate held version then
      { g with rels := g.rels.filter fun r => !(r.type == rel && r.source == source) }
    else g

def relSettable (props : Fields) : Fields :=
  (settable props).filter fun field => field.1 != columnVersion

def setRelProps (props : Fields) (version : Int) (r : Rel) : Rel :=
  if gate r.props version then
    { r with
      props := setProps (relSettable props)
        (put r.props columnVersion (.num version)) }
  else r

/-- The endpoints and the relationship are merged; only the properties are gated. -/
def relUpsert (g : Graph) (id type : String) (source target : NodeKey) (props : Fields)
    (version : Int) : Graph where
  nodes := mergeNode (mergeNode g.nodes source) target
  rels := mergeRel g.rels
    (fun r => r.type == type && r.source == source && r.target == target && hasId id r)
    ⟨type, source, target, [(columnId, .str id)]⟩ (setRelProps props version)

def relDelete (g : Graph) (id : String) (version : Int) : Graph :=
  { g with rels := g.rels.filter fun r => !(hasId id r && gate r.props version) }

def applyMutation (g : Graph) : Mutation → Option Graph
  | .nodeUpsert label id props version =>
    if validIdent label && cypherParams (settable props) then
      some (nodeUpsert g ⟨label, id⟩ props version)
    else none
  | .edgeUpsert rel fromLabel fromId toLabel toId version =>
    if validIdent rel && validIdent fromLabel && validIdent toLabel then
      some (edgeUpsert g rel ⟨fromLabel, fromId⟩ ⟨toLabel, toId⟩ version)
    else none
  | .nodeDelete label id =>
    if validIdent label then some (nodeDelete g ⟨label, id⟩) else none
  | .edgeDelete rel fromLabel fromId version =>
    if validIdent rel && validIdent fromLabel then
      some (edgeDelete g rel ⟨fromLabel, fromId⟩ version)
    else none
  | .relUpsert id type fromLabel fromId toLabel toId props version =>
    if validIdent type && validIdent fromLabel && validIdent toLabel &&
        cypherParams (relSettable props) then
      some (relUpsert g id type ⟨fromLabel, fromId⟩ ⟨toLabel, toId⟩ props version)
    else none
  | .relDelete id version => some (relDelete g id version)
  | .docIndex .. | .docDeindex .. => none

def applyMutations (g : Graph) : List Mutation → Option Graph
  | [] => some g
  | m :: rest => (applyMutation g m).bind fun h => applyMutations h rest

/-- `Engine.handle`: an event the applier refuses is skipped. -/
def handle (reg : Registry) (g : Graph) (env : Envelope) : Option Graph :=
  match graphApplier reg env with
  | none => some g
  | some muts => applyMutations g muts

/-- Whether the graph takes the event; an event that it refuses stays pending. -/
def accepts (reg : Registry) (env : Envelope) : Bool :=
  (handle reg .empty env).isSome

theorem isSome_applyMutation (m : Mutation) (g h : Graph) :
    (applyMutation g m).isSome = (applyMutation h m).isSome := by
  fun_cases applyMutation g m <;> simp_all [applyMutation]

theorem isSome_applyMutations_congr (muts : List Mutation) (g h : Graph) :
    (applyMutations g muts).isSome = (applyMutations h muts).isSome := by
  induction muts generalizing g h with
  | nil => rfl
  | cons m rest ih =>
    have hm := isSome_applyMutation m g h
    rw [applyMutations, applyMutations]
    cases hg : applyMutation g m <;> cases hh : applyMutation h m <;> simp only [hg, hh] at hm ⊢
    · cases hm
    · cases hm
    · exact ih _ _

/-- What the graph holds plays no part in it. -/
theorem isSome_handle {reg : Registry} {env : Envelope} (g : Graph) :
    (handle reg g env).isSome = accepts reg env := by
  unfold accepts handle
  cases graphApplier reg env with
  | none => rfl
  | some muts => exact isSome_applyMutations_congr muts g _

variable {nodes : List (NodeKey × Fields)} {key k : NodeKey} {fields props : Fields}
  {column : String} {version : Int}

theorem lookup_setProp (field : String × Json) : (setProp field props).lookup column =
      if column = field.1 then stored field.2 else props.lookup column := by
  unfold setProp
  split
  · rename_i hnone
    rw [lookup_drop, hnone]
  · rename_i v hv
    rw [lookup_put, hv]

theorem lookup_setProps : (setProps fields props).lookup column =
      (fields.lookup column).elim (props.lookup column) stored := by
  induction fields with
  | nil => rfl
  | cons field rest ih =>
    obtain ⟨name, value⟩ := field
    rw [setProps, foldr_cons, lookup_setProp, lookup_cons]
    by_cases hname : column = name
    · simp [hname]
    · have hbeq : (column == name) = false := by simpa using hname
      rw [if_neg hname, hbeq]
      exact ih

theorem lookup_mergeNode : (mergeNode nodes key).lookup k =
      if k = key then some ((nodes.lookup key).getD [(columnId, .str key.id)])
      else nodes.lookup k := by
  unfold mergeNode
  cases hkey : nodes.lookup key with
  | none =>
    rw [if_neg (by simp), lookup_put]
    rfl
  | some held =>
    rw [if_pos (by simp)]
    split_ifs with hk
    · rw [hk, hkey]
      rfl
    · rfl

theorem lookup_nodeUpsert {g : Graph} {held : Fields}
    (hheld : (g.nodes.lookup key).getD [(columnId, .str key.id)] = held) :
    (nodeUpsert g key props version).nodes.lookup key =
      some (if gate held version then setProps (settable props) held else held) := by
  have hmerged : (mergeNode g.nodes key).lookup key = some held := by
    rw [lookup_mergeNode, if_pos rfl, hheld]
  simp only [nodeUpsert, hmerged, Option.getD_some]
  split_ifs
  · rw [lookup_put, if_pos rfl]
  · exact hmerged

theorem rels_nodeUpsert {g : Graph} : (nodeUpsert g key props version).rels = g.rels := by
  simp only [nodeUpsert]
  split_ifs <;> rfl

variable {rels : List Rel} {found : Rel → Bool} {new r : Rel} {set : Rel → Rel}

theorem mem_mergeRel : r ∈ mergeRel rels found new set ↔
      (r ∈ rels ∧ found r = false) ∨ (∃ old ∈ rels, found old ∧ r = set old) ∨
        (rels.any found = false ∧ r = set new) := by
  unfold mergeRel
  split_ifs with hany
  · simp only [hany, Bool.true_eq_false, false_and, or_false, mem_map]
    constructor
    · rintro ⟨old, hold, rfl⟩
      split_ifs with hfound
      · exact .inr ⟨old, hold, hfound, rfl⟩
      · exact .inl ⟨hold, Bool.eq_false_iff.mpr hfound⟩
    · rintro (⟨hr, hfound⟩ | ⟨old, hold, hfound, rfl⟩)
      · exact ⟨r, hr, by rw [hfound]; rfl⟩
      · exact ⟨old, hold, if_pos hfound⟩
  · have hnone : ∀ old ∈ rels, found old = false := by simpa using hany
    simp only [mem_append, mem_singleton, Bool.eq_false_iff.mpr hany, true_and]
    constructor
    · rintro (hr | rfl)
      · exact .inl ⟨hr, hnone r hr⟩
      · exact .inr (.inr rfl)
    · rintro (⟨hr, -⟩ | ⟨old, hold, hfound, -⟩ | rfl)
      · exact .inl hr
      · rw [hnone old hold] at hfound
        cases hfound
      · exact .inr rfl

theorem exists_mergeRel {Q : Rel → Prop} (hset : ∀ r, found r → (Q (set r) ↔ Q (set new))) :
    (∃ r ∈ mergeRel rels found new set, Q r) ↔
      (∃ r ∈ rels, found r = false ∧ Q r) ∨ Q (set new) := by
  simp only [mem_mergeRel]
  constructor
  · rintro ⟨r, ⟨hr, hfound⟩ | ⟨old, -, hfound, rfl⟩ | ⟨-, rfl⟩, hQ⟩
    · exact .inl ⟨r, hr, hfound, hQ⟩
    · exact .inr ((hset old hfound).mp hQ)
    · exact .inr hQ
  · rintro (⟨r, hr, hfound, hQ⟩ | hQ)
    · exact ⟨r, .inl ⟨hr, hfound⟩, hQ⟩
    · by_cases hany : rels.any found
      · obtain ⟨old, hold, hfound⟩ := any_eq_true.mp hany
        exact ⟨set old, .inr (.inl ⟨old, hold, hfound, rfl⟩), (hset old hfound).mpr hQ⟩
      · exact ⟨set new, .inr (.inr ⟨Bool.eq_false_iff.mpr hany, rfl⟩), hQ⟩

variable {g : Graph} {held : Fields} {rel type : String} {source target x : NodeKey}
  {value : Option Json}

def Graph.links (g : Graph) (source : NodeKey) (type : String) (target : NodeKey)
    (value : Option Json) : Prop :=
  ∃ r ∈ g.rels, r.source = source ∧ r.type = type ∧ r.target = target ∧
    r.props.lookup columnVersion = value

theorem links_edgeUpsert (hnode : g.nodes.lookup source = some held) (hgate : gate held version) :
    (edgeUpsert g rel source target version).links source type x value ↔ if type = rel then
        x.id = target.id ∧
          if x = target then value = some (.num version) else g.links source type x value
      else g.links source type x value := by
  have hkept : (edgeUpsert g rel source target version).links source type x value ↔
      ∃ r ∈ mergeRel g.rels (fun r => r.type == rel && r.source == source && r.target == target)
        ⟨rel, source, target, []⟩
        (fun r => { r with props := put r.props columnVersion (.num version) }),
      (r.source = source ∧ r.type = type ∧ r.target = x ∧
        r.props.lookup columnVersion = value) ∧ (type = rel → x.id = target.id) := by
    simp only [Graph.links, edgeUpsert, hnode, if_pos hgate, mem_filter]
    refine exists_congr fun r => ?_
    constructor
    · rintro ⟨⟨hr, hkeep⟩, rfl, rfl, rfl, hvalue⟩
      refine ⟨hr, ⟨rfl, rfl, rfl, hvalue⟩, ?_⟩
      rintro rfl
      simpa using hkeep
    · rintro ⟨hr, ⟨rfl, rfl, rfl, hvalue⟩, hid⟩
      refine ⟨⟨hr, ?_⟩, rfl, rfl, rfl, hvalue⟩
      by_cases htype : r.type = rel
      · simp [hid htype]
      · simp [htype]
  refine hkept.trans ((exists_mergeRel fun r hr => ?_).trans ?_)
  · simp only [Bool.and_eq_true, beq_iff_eq] at hr
    simp [hr.1.1, hr.1.2, hr.2, lookup_put]
  · simp only [lookup_put, if_pos]
    split_ifs with htype hx
    · subst htype hx
      constructor
      · rintro (⟨r, -, hfound, ⟨hs, ht, hx, -⟩, -⟩ | ⟨⟨-, -, -, hvalue⟩, -⟩)
        · simp [hs, ht, hx] at hfound
        · exact ⟨rfl, hvalue.symm⟩
      · rintro ⟨-, hvalue⟩
        exact .inr ⟨⟨trivial, rfl, rfl, hvalue.symm⟩, fun _ => rfl⟩
    · subst htype
      constructor
      · rintro (⟨r, hr, -, hQ, hid⟩ | ⟨⟨-, -, hx', -⟩, -⟩)
        · exact ⟨hid rfl, r, hr, hQ⟩
        · exact absurd hx'.symm hx
      · rintro ⟨hid, r, hr, hQ⟩
        refine Or.inl ⟨r, hr, ?_, hQ, fun _ => hid⟩
        simp [hQ.2.2.1, hx]
    · constructor
      · rintro (⟨r, hr, -, hQ, -⟩ | ⟨⟨-, htype', -, -⟩, -⟩)
        · exact ⟨r, hr, hQ⟩
        · exact absurd htype'.symm htype
      · rintro ⟨r, hr, hQ⟩
        refine Or.inl ⟨r, hr, ?_, hQ, fun h => absurd h htype⟩
        simp [hQ.2.1, htype]

theorem links_edgeDelete (hnode : g.nodes.lookup source = some held) (hgate : gate held version) :
    (edgeDelete g rel source version).links source type x value ↔
      type ≠ rel ∧ g.links source type x value := by
  simp only [Graph.links, edgeDelete, hnode, if_pos hgate, mem_filter]
  constructor
  · rintro ⟨r, ⟨hr, hkeep⟩, rfl, rfl, rfl, hvalue⟩
    refine ⟨?_, r, hr, rfl, rfl, rfl, hvalue⟩
    rintro rfl
    simp at hkeep
  · rintro ⟨htype, r, hr, rfl, rfl, rfl, hvalue⟩
    exact ⟨r, ⟨hr, by simp [htype]⟩, rfl, rfl, rfl, hvalue⟩

theorem not_links_nodeDelete : ¬ (nodeDelete g source).links source type x value := by
  rintro ⟨r, hr, rfl, -⟩
  simp [nodeDelete] at hr

variable {id : String} {bound : Int}

theorem lookup_settable (hident : validIdent column) (hid : column ≠ columnId) :
    (settable props).lookup column = props.lookup column := by
  induction props with
  | nil => rfl
  | cons field rest ih =>
    obtain ⟨name, value⟩ := field
    rw [settable, filter_cons]
    by_cases hname : column = name
    · subst hname
      simp [hident, hid]
    · have hbeq : (column == name) = false := by simpa using hname
      rw [lookup_cons, hbeq, ← ih]
      split_ifs
      · rw [lookup_cons, hbeq]
        rfl
      · rfl

theorem ne_id_of_mem_settable {field : String × Json} (h : field ∈ settable props) :
    field.1 ≠ columnId :=
  bne_iff_ne.mp (Bool.and_eq_true_iff.mp (mem_filter.mp h).2).2

def relFields (props : Fields) (version : Int) : Fields :=
  ((settable props).filter fun field => field.1 != columnVersion) ++
    [(columnVersion, .num version)]

theorem setRelProps_eq : setRelProps props version r =
      { r with
        props := if gate r.props version then setProps (relFields props version) r.props
          else r.props } := by
  unfold setRelProps
  split_ifs
  · simp only [setProps, relFields, foldr_append]
    rfl
  · rfl

theorem lookup_relFields_version :
    (relFields props version).lookup columnVersion = some (.num version) := by
  have hnone : ((settable props).filter fun field => field.1 != columnVersion).lookup
      columnVersion = none := by
    rw [lookup_eq_none_iff]
    intro field hfield
    have hne := (mem_filter.mp hfield).2
    rw [bne_iff_ne] at hne ⊢
    exact hne.symm
  rw [relFields, lookup_append, hnone]
  rfl

theorem ne_id_of_mem_relFields {field : String × Json} (h : field ∈ relFields props version) :
    field.1 ≠ columnId := by
  rcases mem_append.mp h with h | h
  · exact ne_id_of_mem_settable (mem_of_mem_filter h)
  · have hne : columnVersion ≠ columnId := by decide
    rw [mem_singleton.mp h]
    exact hne

theorem lookup_id_eq_none (h : ∀ field ∈ fields, field.1 ≠ columnId) :
    fields.lookup columnId = none := by
  rw [lookup_eq_none_iff]
  exact fun field hfield => bne_iff_ne.mpr (h field hfield).symm

theorem hasId_setRelProps : hasId id (setRelProps props version r) = hasId id r := by
  rw [setRelProps_eq]
  unfold hasId
  split_ifs
  · rw [lookup_setProps, lookup_id_eq_none fun _ => ne_id_of_mem_relFields]
    rfl
  · rfl

theorem gate_of_lookup {n : Int} (h : props.lookup columnVersion = some (.num n)) :
    gate props version = decide (n ≤ version) := by
  simp only [gate, h, Rat.intCast_le_intCast]

def Graph.gated (g : Graph) (id : String) (version : Int) : Prop :=
  ∀ r ∈ g.rels, hasId id r = true → gate r.props version = true

theorem gate_setRelProps (hle : version ≤ bound) (h : gate r.props bound) :
    gate (setRelProps props version r).props bound := by
  rw [setRelProps_eq]
  split_ifs
  · have hversion : (setProps (relFields props version) r.props).lookup columnVersion =
        some (.num version) := by
      rw [lookup_setProps, lookup_relFields_version]
      rfl
    rw [gate_of_lookup hversion]
    exact decide_eq_true hle
  · exact h

theorem gated_relUpsert (h : g.gated id bound) (hpos : 0 ≤ version) (hle : version ≤ bound) :
    (relUpsert g id rel source target props version).gated id bound := by
  intro r hr hid
  rcases mem_mergeRel.mp hr with ⟨hr, -⟩ | ⟨old, hold, -, rfl⟩ | ⟨-, rfl⟩
  · exact h r hr hid
  · rw [hasId_setRelProps] at hid
    exact gate_setRelProps hle (h old hold hid)
  · refine gate_setRelProps hle ?_
    have hbound : 0 ≤ bound := hpos.trans hle
    simpa [gate, lookup_cons, columnId, columnVersion] using hbound

theorem hasId_relDelete (h : g.gated id version) (hr : r ∈ (relDelete g id version).rels) :
    hasId id r = false := by
  obtain ⟨hmem, hkeep⟩ := mem_filter.mp hr
  by_contra hid
  rw [Bool.not_eq_false] at hid
  simp [hid, h r hmem hid] at hkeep

end Fabriq.Projection.GraphStore
