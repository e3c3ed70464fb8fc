import Mathlib.Data.List.Induction
import Fabriq.Lib.Gated
import Fabriq.Lib.KeyedLog
import Fabriq.Projection.Applier
import Fabriq.Projection.TargetNames

namespace Fabriq.Projection.SearchConvergence

open Core.Schema Lib Lib.Assoc Lib.KeyedLog Projection.Applier Projection.TargetNames List Option

/-- What Elasticsearch knows a document by: the derived name of its index, and its id. -/
structure DocKey where
  index : String
  id : String
  deriving DecidableEq, Repr

/-- What Elasticsearch remembers of an id: its version, and the document unless it was
deleted. -/
structure Entry where
  version : Int
  doc : Option Fields

abbrev Store := List (DocKey × Entry)

/-- One line of a bulk request, with `version_type` `external_gte`. -/
inductive BulkOp
  | index (key : DocKey) (version : Int) (doc : Fields)
  | delete (key : DocKey) (version : Int)

structure Item where
  status : Nat
  versionConflict : Bool := false

def BulkOp.key : BulkOp → DocKey
  | .index key _ _ | .delete key _ => key

def BulkOp.entry : BulkOp → Entry
  | .index _ version doc => ⟨version, some doc⟩
  | .delete _ version => ⟨version, none⟩

/-- A write below the remembered version is a conflict, and the delete of an absent document is not
found; it is remembered all the same. -/
def BulkOp.respond (held : Option Entry) (op : BulkOp) : Item :=
  match held, op with
  | some old, op => if op.entry.version < old.version then ⟨409, true⟩
      else if op.entry.doc.isNone && old.doc.isNone then ⟨404, false⟩ else ⟨200, false⟩
  | none, .index .. => ⟨201, false⟩
  | none, .delete .. => ⟨404, false⟩

def bulkStep (store : Store) (op : BulkOp) : Store :=
  put store op.key (Gated.offer Entry.version (store.lookup op.key) op.entry)

def bulk : Store → List BulkOp → Store × List Item
  | store, [] => (store, [])
  | store, op :: rest =>
    let next := bulk (bulkStep store op) rest
    (next.1, op.respond (store.lookup op.key) :: next.2)

/-- The model version of a tenant's live indexes, `strconv.IsPrint`, and the index names and ids
that Elasticsearch allows. -/
structure Cluster where
  modelVersion : String → Nat
  isPrint : Char → Bool
  allows : DocKey → Bool

def Cluster.key (c : Cluster) (tenant index id : String) : DocKey :=
  ⟨searchIndexVersioned tenant index (c.modelVersion tenant), id⟩

/-- What `%q` writes for a character is JSON: `\a`, `\v`, `\x` and `\U` are not. -/
def Cluster.quotes (c : Cluster) (char : Char) : Bool :=
  c.isPrint char || [8, 9, 10, 12, 13].contains char.toNat ||
    (decide (0x80 ≤ char.toNat) && decide (char.toNat < 0x10000))

def Cluster.accepts (c : Cluster) (key : DocKey) : Bool :=
  (key.index.toList ++ key.id.toList).all c.quotes && c.allows key

def bulkOp (c : Cluster) (tenant : String) : Mutation → Option BulkOp
  | .docIndex index id doc version => some (.index (c.key tenant index id) version doc)
  | .docDeindex index id version => some (.delete (c.key tenant index id) version)
  | _ => none

def Item.refused (i : Item) : Bool :=
  decide (400 ≤ i.status) && !i.versionConflict && i.status != 404

/-- `ApplyMutations`, with whether it returns without an error.  A request that is not JSON, or
whose index cannot be created, writes nothing. -/
def applyMutations (c : Cluster) (tenant : String) (store : Store) (muts : List Mutation) :
    Store × Bool :=
  match muts.mapM (bulkOp c tenant) with
  | none => (store, false)
  | some ops =>
    if ops.all fun op => c.accepts op.key then
      let response := bulk store ops
      (response.1, !response.2.any Item.refused)
    else (store, false)

/-- `Engine.handle` on the search projection; an error leaves the event pending. -/
def handle (c : Cluster) (reg : Registry) (store : Store) (env : Envelope) : Store × Bool :=
  applyMutations c env.tenantId store (searchApplier reg env)

/-- The indexes after a delivery of events, in any order and any number of times. -/
def deliver (c : Cluster) (reg : Registry) (store : Store) (delivery : List Envelope) : Store :=
  delivery.foldl (fun store env => (handle c reg store env).1) store

def document (store : Store) (key : DocKey) : Option Fields :=
  (store.lookup key).bind Entry.doc

def docKey (c : Cluster) (reg : Registry) (env : Envelope) : Option DocKey :=
  ((reg.get env.aggregate).filter fun entity => entity.search.index != "").map fun entity =>
    c.key env.tenantId entity.search.index env.aggId

def docEntry (entity : Entity) (env : Envelope) : Entry where
  version := env.version
  doc := if env.verb = .deleted then none else some (searchDoc entity env)

theorem respond_not_refused (held : Option Entry) (op : BulkOp) :
    (op.respond held).refused = false := by
  cases held with
  | none => cases op <;> rfl
  | some old =>
    simp only [BulkOp.respond]
    split_ifs <;> rfl

variable {c : Cluster} {reg : Registry} {entity : Entity} {store : Store} {env : Envelope}
  {key : DocKey}

theorem handle_eq (hentity : reg.get env.aggregate = some entity)
    (hindex : entity.search.index ≠ "")
    (hkey : c.key env.tenantId entity.search.index env.aggId = key) :
    handle c reg store env = if c.accepts key then
        (put store key (Gated.offer Entry.version (store.lookup key) (docEntry entity env)), true)
      else (store, false) := by
  cases hverb : env.verb <;>
    simp [handle, searchApplier, hentity, hindex, hverb, applyMutations, bulkOp, bulk, bulkStep,
      BulkOp.key, BulkOp.entry, docEntry, respond_not_refused, hkey]

theorem handle_of_docKey_none (hnone : docKey c reg env = none) :
    handle c reg store env = (store, true) := by
  have hmuts : searchApplier reg env = [] := by
    unfold docKey at hnone
    unfold searchApplier
    split
    · rfl
    · rename_i entity hentity
      rw [hentity] at hnone
      by_cases hindex : entity.search.index = ""
      · rw [if_pos hindex]
      · simp [hindex] at hnone
  rw [handle, hmuts]
  rfl

theorem docKey_eq_some (h : docKey c reg env = some key) :
    ∃ entity, reg.get env.aggregate = some entity ∧ entity.search.index ≠ "" ∧
      c.key env.tenantId entity.search.index env.aggId = key := by
  obtain ⟨entity, hentity, rfl⟩ := map_eq_some_iff.mp h
  obtain ⟨hget, hindex⟩ := filter_eq_some_iff.mp hentity
  exact ⟨entity, hget, by simpa using hindex, rfl⟩

theorem lookup_handle_of_ne (hne : docKey c reg env ≠ some key) :
    (handle c reg store env).1.lookup key = store.lookup key := by
  cases hkey : docKey c reg env with
  | none => rw [handle_of_docKey_none hkey]
  | some other =>
    obtain ⟨entity, hentity, hindex, hother⟩ := docKey_eq_some hkey
    rw [handle_eq hentity hindex hother]
    split_ifs
    · rw [lookup_put, if_neg]
      rintro rfl
      exact hne hkey
    · rfl

theorem lookup_handle_self (haccepts : c.accepts key) (hentity : reg.get env.aggregate = some entity)
    (hkey : docKey c reg env = some key) :
    (handle c reg store env).1.lookup key =
      some (Gated.offer Entry.version (store.lookup key) (docEntry entity env)) := by
  obtain ⟨found, hget, hindex, hown⟩ := docKey_eq_some hkey
  obtain rfl := some.inj (hget.symm.trans hentity)
  rw [handle_eq hget hindex hown, if_pos haccepts, lookup_put, if_pos rfl]

theorem holds_deliver {delivery : List Envelope} (haccepts : c.accepts key)
    (hempty : store.lookup key = none)
    (hentity : ∀ e ∈ delivery, docKey c reg e = some key → reg.get e.aggregate = some entity) :
    Gated.Holds Entry.version
      ((delivery.filter fun e => docKey c reg e = some key).map (docEntry entity))
      ((deliver c reg store delivery).lookup key) := by
  induction delivery using reverseRecOn with
  | nil =>
    rw [deliver, foldl_nil, hempty]
    exact Gated.holds_nil
  | append_singleton before e ih =>
    have hbefore := ih fun d hd => hentity d (mem_append_left _ hd)
    rw [deliver, foldl_append, filter_append, map_append]
    by_cases hkey : docKey c reg e = some key
    · rw [filter_singleton, decide_eq_true hkey]
      have hoffer := hbefore.offer (docEntry entity e)
      rw [← lookup_handle_self haccepts (hentity e (by simp) hkey) hkey] at hoffer
      exact hoffer
    · rw [filter_singleton, decide_eq_false hkey]
      simp only [cond_false, map_nil, append_nil, foldl_cons, foldl_nil]
      rw [lookup_handle_of_ne hkey]
      exact hbefore

/-- The events of one aggregate, with versions 1, 2, …. -/
structure History where
  tenant : String
  aggregate : String
  aggId : String
  events : List Envelope
  same : ∀ e ∈ events, e.tenantId = tenant ∧ e.aggregate = aggregate ∧ e.aggId = aggId
  numbered : events.map Envelope.version =
    (range events.length).map fun i : Nat => (i : Int) + 1

namespace History

variable {h : History} {e last : Envelope}

/-- The whole list is the log of one key. -/
theorem keyed (h : History) : Numbered (fun _ => ()) Envelope.version h.events :=
  fun _ => by simpa [history] using h.numbered

theorem version_le (he : e ∈ h.events) : e.version ≤ h.events.length := by
  simpa [history] using h.keyed.le_length (mem_history.mpr ⟨he, rfl⟩)

theorem version_last (hlast : h.events.getLast? = some last) : last.version = h.events.length := by
  have hversion : (h.events.map Envelope.version).getLast? = some last.version := by
    rw [getLast?_map, hlast]
    rfl
  obtain ⟨n, hn⟩ : ∃ n, h.events.length = n + 1 :=
    Nat.exists_eq_succ_of_ne_zero (length_pos_of_mem (mem_of_getLast? hlast)).ne'
  rw [h.numbered, hn, range_succ, map_append, map_singleton,
    getLast?_concat, some.injEq] at hversion
  rw [← hversion, hn]
  push_cast
  rfl

theorem eq_of_version (he : e ∈ h.events) (hlast : last ∈ h.events)
    (hversion : e.version = last.version) : e = last :=
  h.keyed.inj (mem_history.mpr ⟨he, rfl⟩) (mem_history.mpr ⟨hlast, rfl⟩) hversion

end History

/-- The index holds the document of the last event, and none after a delete. -/
def Converged (c : Cluster) (entity : Entity) (h : History) (store : Store) : Prop :=
  ∀ last, h.events.getLast? = some last →
    document store (c.key h.tenant entity.search.index h.aggId) =
      if last.verb = .deleted then none else some (searchDoc entity last)

/-- However the events of an aggregate are reordered and repeated, and whatever other documents
are written in between, its document ends as the last event has it: if the cluster takes its key,
and no other aggregate has the same. -/
theorem search_converges (c : Cluster) (reg : Registry) (h : History) {entity : Entity}
    {store : Store} {delivery : List Envelope} {key : DocKey}
    (hentity : reg.get h.aggregate = some entity) (hindex : entity.search.index ≠ "")
    (hdoc : c.key h.tenant entity.search.index h.aggId = key) (haccepts : c.accepts key = true)
    (hempty : store.lookup key = none) (harrive : ∀ e ∈ h.events, e ∈ delivery)
    (honly : ∀ e ∈ delivery, docKey c reg e = some key → e ∈ h.events) :
    Converged c entity h (deliver c reg store delivery) := by
  intro last hlast
  have hget : ∀ e ∈ h.events, reg.get e.aggregate = some entity := fun e he => by
    rw [(h.same e he).2.1, hentity]
  have hkey : ∀ e ∈ h.events, docKey c reg e = some key := fun e he => by
    obtain ⟨htenant, -, hid⟩ := h.same e he
    simp [docKey, hget e he, hindex, htenant, hid, hdoc]
  have hholds := holds_deliver haccepts hempty fun e he hk => hget e (honly e he hk)
  have hmem := mem_of_getLast? hlast
  -- What was offered to the document is what its own events say.
  have hoffered : ∀ a ∈ (delivery.filter fun e => docKey c reg e = some key).map
      (docEntry entity), ∃ e ∈ h.events, a = docEntry entity e := by
    intro a ha
    obtain ⟨e, he, rfl⟩ := mem_map.mp ha
    obtain ⟨hdelivered, hk⟩ := mem_filter.mp he
    exact ⟨e, honly e hdelivered (by simpa using hk), rfl⟩
  have hheld := hholds.eq_some _
    (mem_map_of_mem (mem_filter.mpr ⟨harrive last hmem, by simpa using hkey last hmem⟩))
    (fun a ha => by
      obtain ⟨e, he, rfl⟩ := hoffered a ha
      exact (History.version_le he).trans (History.version_last hlast).ge)
    (fun a ha hversion => by
      obtain ⟨e, he, rfl⟩ := hoffered a ha
      rw [History.eq_of_version he hmem hversion])
  rw [hdoc, document, hheld]
  rfl

def single : Cluster where
  modelVersion := fun _ => 1
  isPrint := fun char => decide (0x20 ≤ char.toNat ∧ char.toNat < 0x7f)
  allows := fun _ => true

def euAsset : Entity where
  name := "eu_asset"
  columns := ["name"]
  search := ⟨"eu_assets", ["name"]⟩

def assets : Registry :=
  [{ name := "asset", columns := ["name"], search := ⟨"assets", ["name"]⟩ }, euAsset]

def named (tenant aggregate aggId name : String) : Envelope :=
  ⟨tenant, "", aggregate, aggId, 1, .created, [("name", .str name)]⟩

def createdOnce (aggId : String) : History where
  tenant := "acme"
  aggregate := "eu_asset"
  aggId := aggId
  events := [named "acme" "eu_asset" aggId "pump"]
  same := by simp [named]
  numbered := rfl

/-- Two tenants whose indexes have one name, and an id that `%q` does not write as JSON. -/
theorem search_not_converged :
    ¬ Converged single euAsset (createdOnce "a1") (deliver single assets []
        ((createdOnce "a1").events ++ [named "acme_eu" "asset" "a1" "valve"])) ∧
      ¬ Converged single euAsset (createdOnce "\x07")
        (deliver single assets [] (createdOnce "\x07").events) := by
  constructor
  · intro h
    have hname := congrArg (fun doc => (doc.getD []).lookup "name") (h _ rfl)
    have hother : some (Core.Value.Json.str "valve") = some (.str "pump") := hname
    simp at hother
  · intro h
    have hnone : none = some (searchDoc euAsset _) := h _ rfl
    cases hnone

def notes : Registry :=
  [{ name := "note", columns := ["id", "tenant_id", "version", "body"],
     search := ⟨"notes", ["body"]⟩ }]

def noteEvent (version : Int) (verb : Verb) (payload : Fields) : Envelope :=
  ⟨"acme", "", "note", "n1", version, verb, payload⟩

def removedNote : History where
  tenant := "acme"
  aggregate := "note"
  aggId := "n1"
  events := [noteEvent 1 .created [("body", .str "hello")], noteEvent 2 .deleted []]
  same := by decide
  numbered := by decide

/-- The delete overtakes the create, which then meets the version it left. -/
theorem search_converges_removedNote : document (deliver single notes [] [noteEvent 2 .deleted [],
      noteEvent 1 .created [("body", .str "hello")]]) (single.key "acme" "notes" "n1") = none := by
  refine search_converges single notes removedNote rfl (by decide) rfl (by decide) rfl ?_ ?_ _ rfl
  · simp [removedNote]
  · simp [removedNote]

end Fabriq.Projection.SearchConvergence
