import Fabriq.Analytics.RedactEdits

namespace Fabriq.Analytics.RedactAgree

open Analytics.Redact Analytics.RedactEdits Lib.Assoc List Option

section

variable (codec : Codec)

theorem lookup_marshalMembers (members : List (String × Out)) (k : String) :
    (marshalMembers codec members).lookup k = (members.lookup k).map (marshal codec) := by
  induction members with
  | nil => rfl
  | cons e rest ih =>
    obtain ⟨j, v⟩ := e
    rw [marshalMembers, lookup_cons, lookup_cons]
    cases k == j with
    | true => rfl
    | false => exact ih

theorem joinMembers_congr {members members' : List (String × String)}
    (h : ∀ k, members.lookup k = members'.lookup k) :
    joinMembers codec members = joinMembers codec members' := by
  have hkeys : (members.map Prod.fst).dedup.Perm (members'.map Prod.fst).dedup := by
    refine (perm_ext_iff_of_nodup (nodup_dedup _) (nodup_dedup _)).mpr fun k => ?_
    rw [mem_dedup, mem_dedup, ← isSome_lookup_iff, ← isSome_lookup_iff, h]
  have hsorted : (members.map Prod.fst).dedup.insertionSort (· ≤ ·) =
      (members'.map Prod.fst).dedup.insertionSort (· ≤ ·) :=
    List.Perm.eq_of_pairwise' (pairwise_insertionSort _ _) (pairwise_insertionSort _ _)
      ((perm_insertionSort _ _).trans (hkeys.trans (perm_insertionSort _ _).symm))
  unfold joinMembers
  rw [hsorted]
  simp only [h]

def SameOut (s s' : Option Out) : Prop :=
  s.map (marshal codec) = s'.map (marshal codec)

variable {codec} {members members' : List (String × Out)}

theorem marshal_map_congr (h : ∀ k, SameOut codec (members.lookup k) (members'.lookup k)) :
    marshal codec (.map members) = marshal codec (.map members') := by
  rw [marshal, marshal]
  refine joinMembers_congr codec fun k => ?_
  rw [lookup_marshalMembers, lookup_marshalMembers]
  exact h k

theorem SameOut.map (h : ∀ k, SameOut codec (members.lookup k) (members'.lookup k)) :
    SameOut codec (some (.map members)) (some (.map members')) :=
  congrArg some (marshal_map_congr h)

end

def edits (f : Raw → Raw) (included hashed excluded : List (List String)) (t : Option Raw) :
    List Edit :=
  copies id t included ++ (copies f t hashed ++ excluded.map Edit.del)

theorem edits_under (f : Raw → Raw) (included hashed excluded : List (List String))
    (t : Option Raw) (k : String) :
    (edits f included hashed excluded t).filterMap (Edit.under k) =
      edits f (tails k included) (tails k hashed) (tails k excluded) (memberOf t k) := by
  unfold edits
  rw [filterMap_append, filterMap_append, copies_under, copies_under, dels_under]

theorem foldl_edits (f : Raw → Raw) (included hashed excluded : List (List String))
    (t : Option Raw) (s : Option Out) :
    (edits f included hashed excluded t).foldl applySlot s =
      (copies f t hashed ++ excluded.map Edit.del).foldl applySlot
        ((copies id t included).foldl applySlot s) :=
  foldl_append

variable {q : List String}

section

variable (hashed excluded : List (List String))

def IsObject (v : Option Raw) : Prop :=
  ∃ text members, v = some (.object text members)

/-- No excluded and no hashed path leads to the path or to something it is below. -/
def Free (q : List String) : Prop :=
  ∀ r ∈ excluded ++ hashed, ¬r <+: q

/-- Something below the path is excluded, or is there and hashed. -/
def Taken (t : Option Raw) (q : List String) : Prop :=
  (∃ e ∈ excluded, q <+: e ∧ q ≠ e) ∨
    ∃ h ∈ hashed, (q <+: h ∧ q ≠ h) ∧ (getFrom t h).isSome = true

/-- The values at a path are the same bytes, or objects that something is taken out of, whose
members are to be compared instead. -/
def SameAt (t t' : Option Raw) (q : List String) : Prop :=
  getFrom t q = getFrom t' q ∨
    IsObject (getFrom t q) ∧ IsObject (getFrom t' q) ∧ Taken hashed excluded t q

def HashAgree (f : Raw → Raw) (t t' : Option Raw) : Prop :=
  ∀ h ∈ hashed, (getFrom t h).map f = (getFrom t' h).map f

variable {hashed excluded} {f : Raw → Raw} {t t' : Option Raw} {k : String}

theorem Free.cons (hexcl : [] ∉ excluded) (hhashed : [] ∉ hashed)
    (h : Free (tails k hashed) (tails k excluded) q) : Free hashed excluded (k :: q) := by
  intro r hr hprefix
  rcases prefix_cons_iff.mp hprefix with rfl | ⟨rest, rfl, hrest⟩
  · rcases mem_append.mp hr with hr | hr
    · exact hexcl hr
    · exact hhashed hr
  · refine h rest ?_ hrest
    rcases mem_append.mp hr with hr | hr
    · exact mem_append_left _ (mem_tails.mpr hr)
    · exact mem_append_right _ (mem_tails.mpr hr)

theorem below_cons {r : List String} (h : k :: q <+: r ∧ k :: q ≠ r) :
    ∃ rest, r = k :: rest ∧ q <+: rest ∧ q ≠ rest := by
  obtain ⟨⟨more, rfl⟩, hne⟩ := h
  exact ⟨q ++ more, rfl, prefix_append q more, fun heq => hne (congrArg (k :: ·) heq)⟩

theorem SameAt.member (h : SameAt hashed excluded t t' (k :: q)) :
    SameAt (tails k hashed) (tails k excluded) (memberOf t k) (memberOf t' k) q := by
  unfold SameAt at h ⊢
  rw [getFrom_cons, getFrom_cons] at h
  refine h.imp_right ?_
  rintro ⟨hobj, hobj', htaken⟩
  refine ⟨hobj, hobj', ?_⟩
  rcases htaken with ⟨e, he, hbelow⟩ | ⟨r, hr, hbelow, hsome⟩
  · obtain ⟨rest, rfl, hrest⟩ := below_cons hbelow
    exact .inl ⟨rest, mem_tails.mpr he, hrest⟩
  · obtain ⟨rest, rfl, hrest⟩ := below_cons hbelow
    exact .inr ⟨rest, mem_tails.mpr hr, hrest, by rwa [getFrom_cons] at hsome⟩

section

variable (h : HashAgree hashed f t t')
include h

theorem HashAgree.member (k : String) :
    HashAgree (tails k hashed) f (memberOf t k) (memberOf t' k) := by
  intro r hr
  rw [← getFrom_cons, ← getFrom_cons]
  exact h (k :: r) (mem_tails.mp hr)

theorem HashAgree.isSome_eq {r : List String} (hr : r ∈ hashed) :
    (getFrom t r).isSome = (getFrom t' r).isSome := by
  have hsame := congrArg Option.isSome (h r hr)
  rwa [isSome_map, isSome_map] at hsame

theorem HashAgree.symm : HashAgree hashed f t' t :=
  fun r hr => (h r hr).symm

omit h in
theorem SameAt.symm (hagree : HashAgree hashed f t t') (h : SameAt hashed excluded t t' q) :
    SameAt hashed excluded t' t q := by
  rcases h with h | ⟨hobj, hobj', htaken⟩
  · exact .inl h.symm
  · refine .inr ⟨hobj', hobj, htaken.imp_right ?_⟩
    rintro ⟨r, hr, hbelow, hsome⟩
    exact ⟨r, hr, hbelow, by rwa [← hagree.isSome_eq hr]⟩

theorem HashAgree.copies_eq : copies f t hashed = copies f t' hashed := by
  refine filterMap_congr fun path hpath => ?_
  have hmap : ∀ v : Option Raw, (v.map fun v => Edit.set path (f v)) =
      (v.map f).map _ := fun v => (Option.map_map _ _ v).symm
  rw [hmap, hmap, h path hpath]

end

end

variable {codec : Codec} {f : Raw → Raw} {included hashed excluded : List (List String)}
  {t t' : Option Raw} {s s' : Option Out}

theorem sameOut_of_main (hagree : HashAgree hashed f t t') (hs : t = none → s = none)
    (hs' : t' = none → s' = none)
    (hmain : [] ∉ excluded → [] ∉ hashed →
      SameOut codec ((edits f included hashed excluded t).foldl applySlot s)
        ((edits f included hashed excluded t').foldl applySlot s')) :
    SameOut codec ((edits f included hashed excluded t).foldl applySlot s)
      ((edits f included hashed excluded t').foldl applySlot s') := by
  by_cases hexcl : [] ∈ excluded
  · rw [foldl_edits, foldl_edits, foldl_append, foldl_append,
      foldl_del_of_nil_mem hexcl, foldl_del_of_nil_mem hexcl]
    rfl
  by_cases hhashed : [] ∈ hashed
  · cases t with
    | none =>
      have hnone : t' = none := by simpa [getFrom] using hagree [] hhashed
      subst hnone
      rw [hs rfl, hs' rfl]
      rfl
    | some v =>
      have hset : Edit.set [] (f v) ∈ copies f (some v) hashed ++ excluded.map Edit.del :=
        mem_append_left _ (mem_copies.mpr ⟨[], hhashed, v, rfl, rfl⟩)
      rw [foldl_edits, foldl_edits, ← hagree.copies_eq, foldl_of_set_nil hset]
      rfl
  · exact hmain hexcl hhashed

def afterLast : List (List String) → List (List String)
  | [] => []
  | path :: rest => if [] ∈ rest then afterLast rest else if path = [] then rest else path :: rest

theorem mem_of_mem_afterLast {paths : List (List String)} {path : List String}
    (h : path ∈ afterLast paths) : path ∈ paths := by
  induction paths with
  | nil => exact h
  | cons first rest ih =>
    unfold afterLast at h
    split at h
    · exact mem_cons_of_mem _ (ih h)
    · split at h
      · exact mem_cons_of_mem _ h
      · exact h

theorem nil_not_mem_afterLast (paths : List (List String)) : [] ∉ afterLast paths := by
  induction paths with
  | nil => exact not_mem_nil
  | cons first rest ih =>
    unfold afterLast
    split
    · exact ih
    · rename_i hrest
      split
      · exact hrest
      · rename_i hfirst
        exact fun h => (mem_cons.mp h).elim (fun heq => hfirst heq.symm) hrest

theorem foldl_copies_afterLast (v : Raw) (paths : List (List String)) (s : Option Out) :
    (copies id (some v) paths).foldl applySlot s =
      (copies id (some v) (afterLast paths)).foldl applySlot
        (if [] ∈ paths then some (.raw v) else s) := by
  induction paths generalizing s with
  | nil => rfl
  | cons path rest ih =>
    have hcons : copies id (some v) (path :: rest) =
        ((getFrom (some v) path).map (Edit.set path)).toList ++ copies id (some v) rest := by
      unfold copies
      rw [filterMap_cons]
      cases getFrom (some v) path <;> rfl
    rw [hcons, foldl_append]
    unfold afterLast
    by_cases hrest : [] ∈ rest
    · rw [if_pos hrest, if_pos (mem_cons_of_mem _ hrest), ih, if_pos hrest]
    · rw [if_neg hrest]
      by_cases hpath : path = []
      · subst hpath
        rw [if_pos rfl, if_pos mem_cons_self]
        rfl
      · have hnot : [] ∉ path :: rest := fun h =>
          (mem_cons.mp h).elim (fun heq => hpath heq.symm) hrest
        rw [if_neg hpath, if_neg hnot, hcons, foldl_append]

end Fabriq.Analytics.RedactAgree
