import Fabriq.Dynamic.Lifecycle

/-!
One pass of `syncPersistedDynamic` without a failure brings the registry to the rows, and a
second pass finds nothing to do.
-/

namespace Fabriq.Dynamic.SyncConverges

open Lib.Assoc Dynamic.Spec Dynamic.Lifecycle List Option

variable {β : Type} {json : Json β}

theorem mapM_inverse {α γ : Type} {f : α → Option γ} {g : γ → Option α}
    (h : ∀ a b, f a = some b → g b = some a) {l : List α} {m : List γ}
    (hm : l.mapM f = some m) : m.mapM g = some l := by
  induction l generalizing m with
  | nil =>
    obtain rfl : [] = m := by simpa using hm
    rfl
  | cons a rest ih =>
    simp only [mapM_cons, bind_eq_bind, bind_eq_some_iff] at hm
    obtain ⟨b, hb, bs, hbs, hm⟩ := hm
    cases hm
    simp [mapM_cons, h a b hb, ih hbs]

theorem encodeColumn_of_decodeColumn {c : PersistedColumn} {d : DynamicColumn}
    (h : decodeColumn c = some d) : encodeColumn d = some c := by
  obtain ⟨t, ht, rfl⟩ := map_eq_some_iff.mp h
  have hname : columnTypeName t = some c.type := by simpa using List.find?_some ht
  simp [encodeColumn, hname]

/-- A layout as it is written back: the seconds of the time to live may have wrapped around. -/
def PersistedSpec.canonical (p : PersistedSpec) : PersistedSpec :=
  { p with cache := p.cache.map fun c => encodeCache (decodeCache c) }

theorem encodePersisted_of_decodePersisted {p : PersistedSpec} {spec : EntitySpec}
    (h : decodePersisted p = some spec) : encodePersisted spec = some
    (PersistedSpec.canonical p) := by
  unfold decodePersisted at h
  split_ifs at h with hguard
  obtain ⟨columns, hcolumns, rfl⟩ := map_eq_some_iff.mp h
  have hback := mapM_inverse (fun _ _ => encodeColumn_of_decodeColumn) hcolumns
  simp [encodePersisted, hback, PersistedSpec.canonical, hguard.1, Function.comp_def]

theorem encodeCache_decodeCache (c : CacheSpec) :
    encodeCache (decodeCache (encodeCache c)) = encodeCache c := by
  have hlow := c.ttl.le_toInt
  have hhigh := c.ttl.toInt_lt
  have hsecs := Int.mul_tdiv_add_tmod c.ttl.toInt (10 ^ 9)
  -- the remainder has the sign of the duration, so whole seconds stay in range
  have hpos := Int.tmod_lt_of_pos c.ttl.toInt (b := 10 ^ 9) (by decide)
  have hneg := Int.tmod_lt_of_pos (-c.ttl.toInt) (b := 10 ^ 9) (by decide)
  have hsign : 0 ≤ c.ttl.toInt → 0 ≤ c.ttl.toInt.tmod (10 ^ 9) := Int.tmod_nonneg _
  have hsign' : 0 ≤ -c.ttl.toInt → 0 ≤ (-c.ttl.toInt).tmod (10 ^ 9) := Int.tmod_nonneg _
  rw [Int.neg_tmod] at hneg hsign'
  have hval : (BitVec.ofInt 64 (c.ttl.toInt.tdiv (10 ^ 9) * 10 ^ 9)).toInt =
      c.ttl.toInt.tdiv (10 ^ 9) * 10 ^ 9 := by
    rw [BitVec.toInt_ofInt, Int.bmod_def]
    omega
  simp only [encodeCache, decodeCache, hval, PersistedCache.mk.injEq, and_true]
  exact Int.mul_tdiv_cancel _ (by decide)

variable {b : β}

theorem encode_decode_encode {s spec : EntitySpec} (hs : encodeDynamicSpec json s = some b)
    (hspec : decodeDynamicSpec json b = some spec) : encodeDynamicSpec json spec = some b := by
  obtain ⟨p, hp, rfl⟩ := map_eq_some_iff.mp hs
  obtain ⟨q, hq, hdecode⟩ := bind_eq_some_iff.mp hspec
  obtain rfl := some.inj ((json.unmarshal_marshal p).symm.trans hq)
  have hcanonical : PersistedSpec.canonical p = p := by
    obtain ⟨sc, -, h⟩ := bind_eq_some_iff.mp hp
    obtain ⟨columns, -, h⟩ := bind_eq_some_iff.mp h
    cases h
    simp [PersistedSpec.canonical, Function.comp_def, encodeCache_decodeCache]
  rw [encodeDynamicSpec, encodePersisted_of_decodePersisted hdecode, hcanonical]
  rfl

theorem encode_isSome_of_decode {spec : EntitySpec} (h : decodeDynamicSpec json b = some spec) :
    ∃ e, encodeDynamicSpec json spec = some e := by
  obtain ⟨p, -, hdecode⟩ := bind_eq_some_iff.mp h
  exact ⟨_, by rw [encodeDynamicSpec, encodePersisted_of_decodePersisted hdecode]; rfl⟩

def InCode (f : Facade) (n : String) : Prop :=
  (f.get n).isSome ∧ f.loaded.lookup n = none

/-- The registry holds the row's spec, up to what is not persisted, at its revision. -/
def Holds (json : Json β) (f : Facade) (r : Record β) (spec : EntitySpec) : Prop :=
  ∃ cur, f.get r.name = some cur ∧ f.loaded.lookup r.name = some r.revision ∧
    encodeDynamicSpec json cur = encodeDynamicSpec json spec

def Skip.benign : Skip → Bool
  | .invalidSpec => true
  | .registeredInCode => true
  | _ => false

def Clean (p : Pass) : Prop :=
  ∀ e ∈ p.result.skipped, Skip.benign e.2 = true

variable {ensureRow : String → Bool} {rows : List (Record β)} {f : Facade} {p : Pass}
  {r : Record β} {spec : EntitySpec} {n : String}

theorem add_taken {ensured : Bool} {revision : Int} (hclean : Clean (p.add ensured spec revision)) :
    (p.add ensured spec revision).facade = ⟨put p.facade.registry spec.name spec,
      put p.facade.loaded spec.name revision, (p.facade.addGuardedTable spec).guarded⟩ := by
  unfold Pass.add at hclean ⊢
  split at hclean
  · exact absurd (hclean _ (mem_append_right _ mem_cons_self)) (by simp [Skip.benign])
  · rename_i g hg
    obtain ⟨rfl, -⟩ := Facade.register_eq_ok hg
    split_ifs at hclean with hens
    · rw [if_pos hens]
      rfl
    · exact absurd (hclean _ (mem_append_right _ mem_cons_self)) (by simp [Skip.benign])

theorem update_taken {ensured : Bool} {prev : EntitySpec} {revision : Int}
    (hclean : Clean (p.update ensured spec prev revision)) :
    ∃ ent guarded, encodeDynamicSpec json ent = encodeDynamicSpec json spec ∧
      (p.update ensured spec prev revision).facade = ⟨put p.facade.registry spec.name ent,
        put p.facade.loaded spec.name revision, guarded⟩ := by
  unfold Pass.update at hclean ⊢
  split at hclean
  · exact absurd (hclean _ (mem_append_right _ mem_cons_self)) (by simp [Skip.benign])
  · rename_i g hg
    have hput : ∃ ent, encodeDynamicSpec json ent = encodeDynamicSpec json spec ∧
        g = ⟨put p.facade.registry spec.name ent, p.facade.loaded, p.facade.guarded⟩ := by
      unfold Facade.replaceLoaded at hg
      split at hg
      · rename_i g' hg'
        cases hg
        exact ⟨_, encode_withInProcessFields json spec prev, (Facade.replace_eq_ok hg').1⟩
      · exact ⟨spec, rfl, (Facade.replace_eq_ok hg).1⟩
    obtain ⟨ent, hent, rfl⟩ := hput
    split_ifs at hclean with hens
    · rw [if_pos hens]
      cases prev.schema with
      | none => exact ⟨ent, _, hent, rfl⟩
      | some s =>
        dsimp only
        split_ifs <;> exact ⟨ent, _, hent, rfl⟩
    · exact absurd (hclean _ (mem_append_right _ mem_cons_self)) (by simp [Skip.benign])

/-- What a row does in a pass without failures. -/
inductive RowStep (json : Json β) (f g : Facade) (r : Record β) : Prop
  | unreadable (hrow : decodeRow json r = none) (heq : g = f)
  | inCode (hcode : InCode f r.name) (heq : g = f)
  | settled (spec : EntitySpec) (hrow : decodeRow json r = some spec)
      (hholds : Holds json f r spec) (heq : g = f)
  | taken (spec ent : EntitySpec) (guarded : List String) (hcode : ¬ InCode f r.name)
      (hrow : decodeRow json r = some spec)
      (hent : encodeDynamicSpec json ent = encodeDynamicSpec json spec)
      (heq : g = ⟨put f.registry r.name ent, put f.loaded r.name r.revision, guarded⟩)

variable {g : Facade}

theorem RowStep.frame (h : RowStep json f g r) (hn : n ≠ r.name) :
    g.get n = f.get n ∧ g.loaded.lookup n = f.loaded.lookup n := by
  cases h with
  | taken spec ent guarded _ _ _ heq =>
    rw [heq]
    exact ⟨by simp [Facade.get, lookup_put, hn], by simp [lookup_put, hn]⟩
  | _ => simp [*]

theorem RowStep.holds (h : RowStep json f g r) (hspec : decodeRow json r = some spec)
    (hcode : ¬ InCode f r.name) : Holds json g r spec := by
  cases h with
  | unreadable hrow _ => simp [hrow] at hspec
  | inCode h _ => exact absurd h hcode
  | settled spec' hrow hholds heq =>
    obtain rfl := some.inj (hspec.symm.trans hrow)
    exact heq ▸ hholds
  | taken spec' ent guarded _ hrow hent heq =>
    obtain rfl := some.inj (hspec.symm.trans hrow)
    rw [heq]
    exact ⟨ent, by simp [Facade.get, lookup_put], by simp [lookup_put], hent⟩

theorem mem_gone : n ∈ gone rows g ↔ (g.loaded.lookup n).isSome ∧ n ∉ rows.map Record.name := by
  simp only [gone, mem_filter, isSome_lookup_iff, decide_eq_true_eq]

variable [DecidableEq β]

theorem same_iff {a : EntitySpec} (h : decodeDynamicSpec json b = some spec) :
    sameDynamicEncoding json a spec ↔ encodeDynamicSpec json a = encodeDynamicSpec json spec := by
  obtain ⟨e, he⟩ := encode_isSome_of_decode h
  unfold sameDynamicEncoding
  cases encodeDynamicSpec json a <;> simp [he]

theorem skipped_subset : p.result.skipped ⊆ (syncRow json ensureRow p r).result.skipped := by
  unfold syncRow Pass.add Pass.update
  intro e he
  repeat' split
  all_goals first | exact he | exact mem_append_left _ he

theorem rowStep (hclean : Clean (syncRow json ensureRow p r)) :
    RowStep json p.facade (syncRow json ensureRow p r).facade r := by
  revert hclean
  fun_cases syncRow json _ p r <;> intro hclean
  · exact .unreadable ‹_› rfl
  · rename_i spec hspec hget
    obtain ⟨hname, -⟩ := decodeRow_name json hspec
    exact .taken spec spec _ (fun h => by simp_all [InCode]) hspec rfl (hname ▸ add_taken hclean)
  · rename_i hloaded hcur
    exact .inCode ⟨by simp [hcur], hloaded⟩ rfl
  · rename_i spec hspec cur known hloaded hcur hsame
    refine .settled spec hspec ⟨cur, hcur, ?_, ?_⟩ rfl
    · rw [hloaded, hsame.1]
    · exact (same_iff (decodeRow_name json hspec).2).mp hsame.2
  · rename_i spec hspec _ _ _ _ _
    obtain ⟨ent, guarded, hent, heq⟩ := @update_taken _ json _ _ _ _ _ hclean
    exact .taken spec ent guarded (fun h => by simp_all [InCode]) hspec hent
      ((decodeRow_name json hspec).1 ▸ heq)

/-- After the rows of a list: what each row asked for holds, and everything else is as it was. -/
structure After (json : Json β) (rows : List (Record β)) (f g : Facade) : Prop where
  holds : ∀ r ∈ rows, ∀ spec, decodeRow json r = some spec → ¬ InCode f r.name →
    Holds json g r spec
  code : ∀ n, InCode f n → g.get n = f.get n ∧ g.loaded.lookup n = none
  frame : ∀ n, n ∉ rows.map Record.name →
    g.get n = f.get n ∧ g.loaded.lookup n = f.loaded.lookup n

theorem after_rows (hnodup : (rows.map Record.name).Nodup)
    (hclean : Clean (rows.foldl (syncRow json ensureRow) p)) :
    After json rows p.facade (rows.foldl (syncRow json ensureRow) p).facade := by
  induction rows generalizing p with
  | nil => exact ⟨by simp, fun n hn => ⟨rfl, hn.2⟩, fun n _ => ⟨rfl, rfl⟩⟩
  | cons r rest ih =>
    rw [map_cons, nodup_cons] at hnodup
    have hgrows : ∀ (l : List (Record β)) (q : Pass),
        q.result.skipped ⊆ (l.foldl (syncRow json ensureRow) q).result.skipped := by
      intro l
      induction l with
      | nil => exact fun q => List.Subset.refl _
      | cons a l ih => exact fun q => List.Subset.trans skipped_subset (ih _)
    have hfirst := rowStep fun e he => hclean e (hgrows rest _ he)
    have hrest := ih hnodup.2 hclean
    have hsame : ∀ n, n ≠ r.name → (InCode (syncRow json ensureRow p r).facade n ↔
        InCode p.facade n) := by
      intro n hn
      rw [InCode, InCode, (hfirst.frame hn).1, (hfirst.frame hn).2]
    refine ⟨fun q hq spec hspec hcode => ?_, fun n hn => ?_, fun n hn => ?_⟩
    · rcases mem_cons.mp hq with rfl | hq
      · obtain ⟨cur, hcur, hloaded, henc⟩ := hfirst.holds hspec hcode
        have hkeep := hrest.frame q.name hnodup.1
        exact ⟨cur, hkeep.1.trans hcur, hkeep.2.trans hloaded, henc⟩
      · have hne : q.name ≠ r.name := fun h => hnodup.1 (h ▸ List.mem_map_of_mem hq)
        exact hrest.holds q hq spec hspec ((hsame _ hne).not.mpr hcode)
    · have hcode : InCode (syncRow json ensureRow p r).facade n ∧
          (syncRow json ensureRow p r).facade.get n = p.facade.get n := by
        by_cases hne : n = r.name
        · cases hfirst with
          | settled spec _ hholds heq =>
            obtain ⟨_, _, hloaded, _⟩ := hholds
            simp [hne ▸ hn.2] at hloaded
          | taken _ _ _ hcode => exact absurd (hne ▸ hn) hcode
          | unreadable _ heq | inCode _ heq => exact ⟨heq ▸ hn, by rw [heq]⟩
        · exact ⟨(hsame n hne).mpr hn, (hfirst.frame hne).1⟩
      exact ⟨(hrest.code n hcode.1).1.trans hcode.2, (hrest.code n hcode.1).2⟩
    · rw [map_cons, mem_cons, not_or] at hn
      have hr := hfirst.frame hn.1
      have ht := hrest.frame n hn.2
      exact ⟨ht.1.trans hr.1, ht.2.trans hr.2⟩

def LoadedDynamic (f : Facade) : Prop :=
  ∀ n spec, (f.loaded.lookup n).isSome → f.get n = some spec → spec.schema.isSome

theorem remove_lookup {name : String}
    (hdyn : ∀ spec, p.facade.get name = some spec → spec.schema.isSome) :
    ((p.remove name).facade.get n = if n = name then none else p.facade.get n) ∧
      (p.remove name).facade.loaded.lookup n =
        if n = name then none else p.facade.loaded.lookup n := by
  unfold Pass.remove
  split
  · rename_i ent hent
    obtain ⟨s, hs⟩ := isSome_iff_exists.mp (hdyn ent hent)
    have hget : (p.facade.removeGuardedTable s.table).get name = some ent := hent
    simp only [hs, Facade.attempt, Facade.unregister_of_get hget hs]
    exact ⟨lookup_drop, lookup_drop⟩
  · rename_i hnone
    refine ⟨?_, lookup_drop⟩
    show p.facade.get n = _
    split_ifs with hn
    · rw [hn, hnone]
    · rfl

theorem after_remove {names : List String}
    (hdyn : ∀ n ∈ names, ∀ spec, p.facade.get n = some spec → spec.schema.isSome) :
    ((names.foldl Pass.remove p).facade.get n = if n ∈ names then none else p.facade.get n) ∧
      (names.foldl Pass.remove p).facade.loaded.lookup n =
        if n ∈ names then none else p.facade.loaded.lookup n := by
  induction names generalizing p with
  | nil => simp
  | cons name rest ih =>
    have hget := fun n => @remove_lookup p n name (hdyn name mem_cons_self)
    rw [foldl_cons]
    have hrest := @ih (p.remove name) fun n hn spec hspec => by
      rw [(hget n).1] at hspec
      split_ifs at hspec
      exact hdyn n (mem_cons_of_mem _ hn) spec hspec
    rw [hrest.1, hrest.2, (hget n).1, (hget n).2]
    by_cases h : n ∈ rest <;> by_cases h' : n = name <;> simp [h, h']

theorem remove_result {names : List String} : (names.foldl Pass.remove p).result =
    { p.result with removed := p.result.removed ++ names } := by
  induction names generalizing p with
  | nil => simp
  | cons name rest ih =>
    rw [foldl_cons, ih]
    simp [Pass.remove]

def AtRest (json : Json β) (f : Facade) (r : Record β) : Prop :=
  decodeRow json r = none ∨ InCode f r.name ∨
    ∃ spec, decodeRow json r = some spec ∧ Holds json f r spec

theorem syncRow_atRest (h : AtRest json p.facade r) :
    (syncRow json ensureRow p r).facade = p.facade ∧
      (syncRow json ensureRow p r).result.added = p.result.added ∧
      (syncRow json ensureRow p r).result.updated = p.result.updated ∧
      (syncRow json ensureRow p r).result.removed = p.result.removed := by
  unfold syncRow
  split
  · exact ⟨rfl, rfl, rfl, rfl⟩
  · rename_i spec hspec
    rcases h with h | ⟨hsome, hloaded⟩ | ⟨spec', hspec', cur, hcur, hloaded, henc⟩
    · simp [h] at hspec
    · obtain ⟨cur, hcur⟩ := isSome_iff_exists.mp hsome
      simp only [hcur, hloaded]
      exact ⟨rfl, rfl, rfl, rfl⟩
    · obtain rfl := some.inj (hspec.symm.trans hspec')
      have hsame := (same_iff (decodeRow_name json hspec).2).mpr henc
      simp [hcur, hloaded, hsame]

theorem rows_atRest (h : ∀ r ∈ rows, AtRest json p.facade r) :
    (rows.foldl (syncRow json ensureRow) p).facade = p.facade ∧
      (rows.foldl (syncRow json ensureRow) p).result.added = p.result.added ∧
      (rows.foldl (syncRow json ensureRow) p).result.updated = p.result.updated ∧
      (rows.foldl (syncRow json ensureRow) p).result.removed = p.result.removed := by
  induction rows generalizing p with
  | nil => exact ⟨rfl, rfl, rfl, rfl⟩
  | cons r rest ih =>
    obtain ⟨hf, ha, hu, hr⟩ := @syncRow_atRest _ json _ p r _ (h r mem_cons_self)
    have hrest := @ih (syncRow json _ p r) fun q hq => by
      rw [hf]
      exact h q (mem_cons_of_mem _ hq)
    rwa [hf, ha, hu, hr] at hrest

/-- What a pass without failures leaves, and that a second pass over the same rows reports no
change. -/
structure Converged (json : Json β) (ensureRow : String → Bool) (rows : List (Record β))
    (f g : Facade) : Prop where
  registered : ∀ r ∈ rows, ∀ spec, decodeRow json r = some spec → ¬ InCode f r.name →
    ∃ ent, g.get r.name = some ent ∧ encodeDynamicSpec json ent = encodeDynamicSpec json spec ∧
      ∀ s, encodeDynamicSpec json s = some r.spec → encodeDynamicSpec json ent = some r.spec
  unregistered : ∀ n, (f.loaded.lookup n).isSome → n ∉ rows.map Record.name → g.get n = none
  untouched : ∀ n, InCode f n → g.get n = f.get n
  noneAdded : (syncPersistedDynamic json ensureRow rows g).result.added = []
  noneUpdated : (syncPersistedDynamic json ensureRow rows g).result.updated = []
  noneRemoved : (syncPersistedDynamic json ensureRow rows g).result.removed = []

theorem sync_converges (hnodup : (rows.map Record.name).Nodup) (hdyn : LoadedDynamic f)
    (hclean : Clean (syncPersistedDynamic json ensureRow rows f)) :
    Converged json ensureRow rows f (syncPersistedDynamic json ensureRow rows f).facade := by
  unfold syncPersistedDynamic at hclean ⊢
  generalize hp : rows.foldl (syncRow json _) ⟨f, {}⟩ = p at hclean ⊢
  have hafter : After json rows f p.facade := by
    subst hp
    exact after_rows hnodup fun e he => hclean e (by rw [remove_result]; exact he)
  have hleave : ∀ n, n ∈ gone rows p.facade → n ∉ rows.map _ :=
    fun n hn => (mem_gone.mp hn).2
  have hleft := fun n => @after_remove p n _ fun m hm spec hspec => by
    have hframe := hafter.frame m (hleave m hm)
    exact hdyn m spec (hframe.2 ▸ (mem_gone.mp hm).1) (hframe.1 ▸ hspec)
  generalize (gone rows p.facade).foldl _ p = q at hleft ⊢
  have hrow : ∀ r ∈ rows, q.facade.get r.name = p.facade.get r.name ∧
      q.facade.loaded.lookup r.name = p.facade.loaded.lookup r.name := by
    intro r hr
    have hin : r.name ∉ gone rows p.facade := fun h => hleave _ h (List.mem_map_of_mem hr)
    rw [(hleft _).1, (hleft _).2, if_neg hin, if_neg hin]
    exact ⟨rfl, rfl⟩
  have hholds : ∀ r ∈ rows, ∀ spec, decodeRow json r = some spec → ¬ InCode f r.name →
      Holds json q.facade r spec := by
    intro r hr spec hspec hcode
    obtain ⟨cur, hcur, hloaded, henc⟩ := hafter.holds r hr spec hspec hcode
    exact ⟨cur, (hrow r hr).1.trans hcur, (hrow r hr).2.trans hloaded, henc⟩
  have hcode : ∀ n, InCode f n → q.facade.get n = f.get n ∧ q.facade.loaded.lookup n = none := by
    intro n hn
    have hp := hafter.code n hn
    have hin : n ∉ gone rows p.facade := fun h => by simp [mem_gone, hp.2] at h
    rw [(hleft n).1, (hleft n).2, if_neg hin, if_neg hin]
    exact hp
  have hrest : ∀ r ∈ rows, AtRest json q.facade r := by
    intro r hr
    cases hspec : decodeRow json r with
    | none => exact .inl hspec
    | some spec =>
      by_cases hc : InCode f r.name
      · exact .inr (.inl ⟨by rw [(hcode _ hc).1]; exact hc.1, (hcode _ hc).2⟩)
      · exact .inr (.inr ⟨spec, hspec, hholds r hr spec hspec hc⟩)
  have hgone : gone rows q.facade = [] := by
    refine eq_nil_iff_forall_not_mem.mpr fun n hn => ?_
    obtain ⟨hsome, hnot⟩ := mem_gone.mp hn
    rw [(hleft n).2] at hsome
    split_ifs at hsome with hin
    · cases hsome
    · exact hin (mem_gone.mpr ⟨hsome, hnot⟩)
  obtain ⟨hfac, hadded, hupdated, hremoved⟩ :=
    @rows_atRest _ json _ rows ⟨q.facade, {}⟩ _ hrest
  refine ⟨fun r hr spec hspec hc => ?_, fun n hn hnot => ?_, fun n hn => (hcode n hn).1, ?_, ?_, ?_⟩
  · obtain ⟨ent, hent, -, henc⟩ := hholds r hr spec hspec hc
    refine ⟨ent, hent, henc, fun s hs => henc.trans ?_⟩
    exact encode_decode_encode hs (decodeRow_name json hspec).2
  · have hin : n ∈ gone rows p.facade := mem_gone.mpr ⟨(hafter.frame n hnot).2 ▸ hn, hnot⟩
    rw [(hleft n).1, if_pos hin]
  all_goals
    rw [syncPersistedDynamic, remove_result, hfac, hgone]
    simpa using ‹_›

def note (table : String) : EntitySpec :=
  { name := "note", schema := some { table } }

def before : Facade where
  registry := [("tag", { name := "tag", schema := some { table := "ds_tag" } }),
    ("note", note "ds_note"), ("old", { name := "old", schema := some { table := "ds_old" } })]
  loaded := [("note", 1), ("old", 3)]
  guarded := ["ds_tag", "ds_note", "ds_old"]

def noteRow : Option (Record PersistedSpec) :=
  (encodePersisted (note "ds_note2")).map fun b => ⟨"note", b, 2⟩

theorem sync_converges_moved_note : Converged plainJson (fun _ => true) noteRow.toList before
      (syncPersistedDynamic plainJson (fun _ => true) noteRow.toList before).facade := by
  have hclean : ∀ e ∈ (syncPersistedDynamic plainJson (fun _ => true) noteRow.toList
      before).result.skipped, Skip.benign e.2 := by decide +kernel
  have hdyn : LoadedDynamic before := by
    intro n spec _ hspec
    have hall : ∀ e ∈ before.registry, e.2.schema.isSome := by decide
    exact hall _ (mem_of_lookup hspec)
  exact sync_converges (by decide +kernel) hdyn hclean

end Fabriq.Dynamic.SyncConverges
