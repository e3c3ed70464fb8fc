import Mathlib.Data.List.Induction
import Fabriq.Core.Schema
import Fabriq.Core.Tenant
import Fabriq.Lib.Assoc

namespace Fabriq.Agent.EmbedIndex

open Core.Schema Core.Value Lib.Assoc
open Core.Tenant (valid)

structure EmbedSpec where
  text : Option (Fields → String) := none
  fields : List String := []

/-- An indexer with its embedder; `sprint` is what `%v` makes of a value and `isSpace` what
`TrimSpace` cuts. -/
structure Indexer (ν : Type) where
  spec : String → Option EmbedSpec
  sprint : Json → String
  isSpace : Char → Bool
  embed : String → ν

/-- The columns that `fabriq_embeddings` is unique by. -/
structure Key where
  tenantId : String
  entity : String
  id : String
  deriving DecidableEq

def keyOf (env : Envelope) : Key :=
  ⟨env.tenantId, env.aggregate, env.aggId⟩

/-- A delivery to the consumer; one that is not `ok` ends with an error of the embedder or
of the store and is left for another attempt. -/
structure Delivery where
  env : Envelope
  ok : Bool := true

section

variable {ν : Type} (ix : Indexer ν)

def embedTextFor (spec : EmbedSpec) (vals : Fields) : String :=
  match spec.text with
  | some text => text vals
  | none => " ".intercalate (spec.fields.filterMap fun f =>
      match vals.lookup f with
      | none | some .null => none
      | some v => some (ix.sprint v))

def isBlank (text : String) : Bool :=
  text.toList.all ix.isSpace

def indexRow (store : List (Key × ν)) (spec : EmbedSpec) (env : Envelope) : List (Key × ν) :=
  let text := embedTextFor ix spec env.payload
  if env.aggId = "" ∨ isBlank ix text = true then store
  else put store (keyOf env) (ix.embed text)

def unindex (store : List (Key × ν)) (env : Envelope) : List (Key × ν) :=
  if env.aggId = "" then store else drop store (keyOf env)

def indexEvent (store : List (Key × ν)) (env : Envelope) : List (Key × ν) :=
  match ix.spec env.aggregate with
  | none => store
  | some spec =>
    if env.verb = .deleted then unindex store env
    else if env.payload = [] then store
    else indexRow ix store spec env

def embedHandler (store : List (Key × ν)) (d : Delivery) : List (Key × ν) :=
  if d.ok && valid d.env.tenantId then indexEvent ix store d.env else store

def consume (deliveries : List Delivery) : List (Key × ν) :=
  deliveries.foldl (embedHandler ix) []

/-- What the index is to hold for the row that an event leaves: nothing for a delete or a
blank text. -/
def wanted (env : Envelope) : Option ν :=
  (ix.spec env.aggregate).bind fun spec =>
    let text := embedTextFor ix spec env.payload
    if env.verb = .deleted ∨ env.payload = [] ∨ isBlank ix text = true then none
    else some (ix.embed text)

/-- The deliveries of an aggregate that write: the deletes and the texts that are not
blank. -/
def writes (key : Key) (d : Delivery) : Bool :=
  d.ok && decide (keyOf d.env = key) &&
    (decide (d.env.verb = .deleted) || (wanted ix d.env).isSome)

end

variable {ν : Type} {ix : Indexer ν} {key : Key} {deliveries : List Delivery}

structure Indexed (ix : Indexer ν) (key : Key) : Prop where
  tenant : valid key.tenantId = true
  spec : (ix.spec key.entity).isSome = true
  id : key.id ≠ ""

theorem lookup_indexEvent {env : Envelope} (h : Indexed ix key) (store : List (Key × ν)) :
    (indexEvent ix store env).lookup key =
      if keyOf env = key ∧ (env.verb = .deleted ∨ (wanted ix env).isSome = true) then
        wanted ix env else store.lookup key := by
  by_cases hkey : keyOf env = key
  · subst hkey
    obtain ⟨spec, hspec⟩ := Option.isSome_iff_exists.mp h.spec
    have hid : env.aggId ≠ "" := h.id
    rw [keyOf] at hspec
    simp only [indexEvent, wanted, hspec, Option.bind_some, unindex, indexRow, if_neg hid]
    split_ifs <;> simp_all [lookup_put, lookup_drop]
  · rw [if_neg fun hand => hkey hand.1]
    simp only [indexEvent, unindex, indexRow]
    split
    · rfl
    · split_ifs <;> simp [lookup_put, lookup_drop, Ne.symm hkey]

theorem lookup_embedHandler (h : Indexed ix key) (store : List (Key × ν)) (d : Delivery) :
    (embedHandler ix store d).lookup key =
      if writes ix key d = true then wanted ix d.env else store.lookup key := by
  have hvalid : keyOf d.env = key → valid d.env.tenantId := by
    rintro rfl
    exact h.tenant
  rw [embedHandler, writes]
  split_ifs <;> simp_all [lookup_indexEvent h]

theorem lookup_consume (h : Indexed ix key) (deliveries : List Delivery) :
    (consume ix deliveries).lookup key =
      (deliveries.filter (writes ix key)).getLast?.bind fun d => wanted ix d.env := by
  unfold consume
  induction deliveries using List.reverseRecOn with
  | nil => rfl
  | append_singleton ds d ih =>
    rw [List.foldl_append, List.foldl_cons, List.foldl_nil, lookup_embedHandler h, ih,
      List.filter_append]
    cases hd : writes ix key d <;> simp [hd]

/-- The events of one aggregate, with the versions from 1 on; a delete is the last. -/
structure History (key : Key) (events : List Envelope) (last : Envelope) : Prop where
  aggregate : ∀ e ∈ events, keyOf e = key
  numbered : events.map Envelope.version = (List.range' 1 events.length).map Int.ofNat
  latest : events.getLast? = some last
  deleted : ∀ e ∈ events, e.verb = .deleted → e = last

/-- The last delivery that writes is one of the last event, or of a row with the same embedding;
and if the last event writes nothing, its text being blank, no event has a text. -/
def Settles (ix : Indexer ν) (key : Key) (events : List Envelope) (last : Envelope)
    (deliveries : List Delivery) : Prop :=
  if last.verb = .deleted ∨ (wanted ix last).isSome = true then
    ∃ d ∈ (deliveries.filter (writes ix key)).getLast?,
      d.env = last ∨ last.verb ≠ .deleted ∧ wanted ix d.env = wanted ix last
  else ∀ e ∈ events, wanted ix e = none

section

variable {events : List Envelope} {last : Envelope} (hist : History key events last)
  (hsound : ∀ d ∈ deliveries, keyOf d.env = key → d.env ∈ events)
  (hcomplete : ∀ e ∈ events, ∃ d ∈ deliveries, d.ok = true ∧ d.env = e)
include hist

include hcomplete in
/-- An event that writes was handled, so that there is a last delivery that writes. -/
theorem History.exists_last {e : Envelope} (he : e ∈ events)
    (hwrites : e.verb = .deleted ∨ (wanted ix e).isSome) :
    ∃ d, (deliveries.filter (writes ix key)).getLast? = some d := by
  obtain ⟨d, hd, hok, rfl⟩ := hcomplete e he
  refine Option.ne_none_iff_exists'.mp fun hnone => ?_
  have hmem : d ∈ deliveries.filter (writes ix key) :=
    List.mem_filter.mpr ⟨hd, by simp [writes, hok, hist.aggregate _ he, hwrites]⟩
  rw [List.getLast?_eq_none_iff.mp hnone] at hmem
  cases hmem

include hsound in
/-- A delivery that writes and asks for nothing is one of the delete. -/
theorem History.eq_last {d : Delivery} (hd : d ∈ deliveries.filter (writes ix key))
    (hnone : wanted ix d.env = none) : d.env = last ∧ last.verb = .deleted := by
  obtain ⟨hmem, hwrites⟩ := List.mem_filter.mp hd
  simp only [writes, hnone, Bool.and_eq_true, decide_eq_true_eq, Option.isSome_none,
    Bool.or_false] at hwrites
  have heq := hist.deleted d.env (hsound d hmem hwrites.1.2) hwrites.2
  exact ⟨heq, heq ▸ hwrites.2⟩

end

theorem wanted_deleted {env : Envelope} (h : env.verb = .deleted) : wanted ix env = none := by
  unfold wanted
  cases ix.spec env.aggregate <;> simp [h]

/-- For every history and every delivery that handles each of its events at least once, the index
ends with what the last event asks for exactly if the delivery settles. -/
theorem converges_iff_settles {events : List Envelope} {last : Envelope} (h : Indexed ix key)
    (hist : History key events last) (deliveries : List Delivery)
    (hsound : ∀ d ∈ deliveries, keyOf d.env = key → d.env ∈ events)
    (hcomplete : ∀ e ∈ events, ∃ d ∈ deliveries, d.ok = true ∧ d.env = e) :
    (consume ix deliveries).lookup key = wanted ix last ↔
      Settles ix key events last deliveries := by
  have hmem : last ∈ events := List.mem_of_getLast? hist.latest
  rw [lookup_consume h, Settles]
  split_ifs with hwrites
  · obtain ⟨d, hd⟩ := hist.exists_last hcomplete hmem hwrites
    simp only [hd, Option.bind_some, Option.mem_def, Option.some.injEq, exists_eq_left']
    constructor
    · intro heq
      by_cases hdeleted : last.verb = .deleted
      · rw [wanted_deleted hdeleted] at heq
        exact .inl (hist.eq_last hsound (List.mem_of_getLast? hd) heq).1
      · exact .inr ⟨hdeleted, heq⟩
    · rintro (heq | ⟨-, heq⟩)
      · rw [heq]
      · exact heq
  · obtain ⟨hverb, hblank⟩ := not_or.mp hwrites
    rw [Option.not_isSome_iff_eq_none.mp hblank]
    constructor
    · intro hnone e he
      by_contra hsome
      obtain ⟨d, hd⟩ := hist.exists_last hcomplete he (.inr (Option.isSome_iff_ne_none.mpr hsome))
      rw [hd] at hnone
      exact hverb (hist.eq_last hsound (List.mem_of_getLast? hd) hnone).2
    · intro hall
      have hnil : deliveries.filter (writes ix key) = [] := by
        refine List.eq_nil_iff_forall_not_mem.mpr fun d hd => ?_
        obtain ⟨hdelivered, hkey⟩ := List.mem_filter.mp hd
        simp only [writes, Bool.and_eq_true, decide_eq_true_eq] at hkey
        have hnone := hall d.env (hsound d hdelivered hkey.1.2)
        exact hverb (hist.eq_last hsound hd hnone).2
      rw [hnil]
      rfl

def titles : Indexer String where
  spec := fun entity => if entity = "note" then some ⟨none, ["title"]⟩ else none
  sprint := fun v => match v with
    | .str s => s
    | _ => ""
  isSpace := Char.isWhitespace
  embed := id

def noteEvent (version : Int) (verb : Verb) (payload : Fields) : Envelope :=
  ⟨"acme", "", "note", "n1", version, verb, payload⟩

def noteKey : Key :=
  ⟨"acme", "note", "n1"⟩

theorem indexed_note : Indexed titles noteKey := ⟨by decide, by decide, by decide⟩

def created : Envelope :=
  noteEvent 1 .created [("title", .str "a")]

def deleted : Envelope :=
  noteEvent 2 .deleted []

theorem note_converges :
    (consume titles [⟨deleted, true⟩, ⟨created, true⟩, ⟨deleted, true⟩]).lookup noteKey =
      wanted titles deleted := by
  have hist : History noteKey [created, deleted] deleted :=
    ⟨by decide, by decide, rfl, by simp [created, noteEvent]⟩
  refine (converges_iff_settles indexed_note hist _ (by simp) (by simp)).mpr ?_
  rw [Settles, if_pos (.inl rfl)]
  exact ⟨⟨deleted, true⟩, rfl, .inl rfl⟩

/-- A late redelivery brings the embedding of a deleted row back, and a row whose text was
blanked keeps its old embedding. -/
theorem note_stays_indexed :
    (consume titles [⟨created, true⟩, ⟨deleted, true⟩, ⟨created, true⟩]).lookup noteKey ≠
        wanted titles deleted ∧
      (consume titles [⟨created, true⟩, ⟨noteEvent 2 .updated [("title", .str "")], true⟩]).lookup
          noteKey ≠ wanted titles (noteEvent 2 .updated [("title", .str "")]) := by
  decide

end Fabriq.Agent.EmbedIndex
