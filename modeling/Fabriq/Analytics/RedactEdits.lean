import Fabriq.Analytics.Redact

/-!
Redaction as a list of edits.  An edit of a map edits the field its path starts with, by the rest
of the path; so the edits of a map are, field by field, edits of the fields.
-/

namespace Fabriq.Analytics.RedactEdits

open Analytics.Redact Lib.Assoc List

inductive Edit
  | set (path : List String) (v : Raw)
  | del (path : List String)

def Edit.path : Edit → List String
  | .set path _ => path
  | .del path => path

def applyMap (out : List (String × Out)) : Edit → List (String × Out)
  | .set path v => setPath out path v
  | .del path => deletePath out path

def applySlot : Option Out → Edit → Option Out
  | _, .set [] v => some (.raw v)
  | s, .set (seg :: rest) v => some (.map (setPath ((asMap s).getD []) (seg :: rest) v))
  | _, .del [] => none
  | s, .del (seg :: rest) =>
    match asMap s with
    | some child => some (.map (deletePath child (seg :: rest)))
    | none => s

def Edit.under (k : String) : Edit → Option Edit
  | .set (seg :: rest) v => if seg = k then some (.set rest v) else none
  | .del (seg :: rest) => if seg = k then some (.del rest) else none
  | _ => none

theorem lookup_applyMap (out : List (String × Out)) (e : Edit) (k : String) :
    (applyMap out e).lookup k =
      match e.under k with
      | some e' => applySlot (out.lookup k) e'
      | none => out.lookup k := by
  cases e with
  | set path v =>
    match path with
    | [] => rfl
    | [seg] =>
      simp only [applyMap, setPath, Edit.under, lookup_put]
      by_cases h : seg = k
      · simp [h, applySlot]
      · simp [h, Ne.symm h]
    | seg :: next :: rest =>
      simp only [applyMap, setPath, Edit.under, lookup_put]
      by_cases h : seg = k
      · simp [h, applySlot]
      · simp [h, Ne.symm h]
  | del path =>
    match path with
    | [] => rfl
    | [seg] =>
      simp only [applyMap, deletePath, Edit.under, lookup_drop]
      by_cases h : seg = k
      · simp [h, applySlot]
      · simp [h, Ne.symm h]
    | seg :: next :: rest =>
      simp only [applyMap, deletePath, Edit.under]
      by_cases h : seg = k
      · subst h
        simp only [if_pos, applySlot]
        cases asMap (out.lookup seg) with
        | none => rfl
        | some child => simp [lookup_put]
      · simp only [h, if_false]
        cases asMap (out.lookup seg) with
        | none => rfl
        | some child => simp [lookup_put, Ne.symm h]

theorem lookup_applyAll (edits : List Edit) (out : List (String × Out)) (k : String) :
    (edits.foldl applyMap out).lookup k =
      (edits.filterMap (Edit.under k)).foldl applySlot (out.lookup k) := by
  induction edits generalizing out with
  | nil => rfl
  | cons e edits ih =>
    rw [foldl_cons, ih, lookup_applyMap, filterMap_cons]
    cases e.under k with
    | none | some e' => rfl

variable {child : List (String × Out)} {paths : List (List String)} {s : Option Out}
  {t : Option Raw}

theorem applySlot_map (hs : asMap s = some child)
    {e : Edit} (hpath : e.path ≠ []) : applySlot s e = some (.map (applyMap child e)) := by
  match e with
  | .set [] _ => exact absurd rfl hpath
  | .set (_ :: _) _ => simp [applySlot, applyMap, hs]
  | .del [] => exact absurd rfl hpath
  | .del (_ :: _) => simp [applySlot, applyMap, hs]

variable {edits : List Edit}

theorem foldl_applySlot_map (hs : asMap s = some child) (hpaths : ∀ e ∈ edits, e.path ≠ [])
    (hne : edits ≠ []) : edits.foldl applySlot s = some (.map (edits.foldl applyMap child)) := by
  induction edits generalizing s child with
  | nil => exact absurd rfl hne
  | cons e edits ih =>
    rw [foldl_cons, foldl_cons, applySlot_map hs (hpaths e mem_cons_self)]
    by_cases hlast : edits = []
    · subst hlast
      rfl
    · exact ih rfl (fun e' he' => hpaths e' (mem_cons_of_mem e he')) hlast

theorem foldl_applySlot_none {path : List String} (hpath : path ≠ []) (v : Raw)
    (hpaths : ∀ e ∈ edits, e.path ≠ []) :
    (Edit.set path v :: edits).foldl applySlot none =
      some (.map ((Edit.set path v :: edits).foldl applyMap [])) := by
  obtain ⟨seg, rest, rfl⟩ := exists_cons_of_ne_nil hpath
  have hfirst : applySlot none (.set (seg :: rest) v) =
      some (.map _) := rfl
  rw [foldl_cons, foldl_cons, hfirst]
  by_cases hlast : edits = []
  · subst hlast
    rfl
  · exact foldl_applySlot_map rfl hpaths hlast

theorem foldl_del_none (paths : List (List String)) :
    (paths.map Edit.del).foldl applySlot none = none := by
  induction paths with
  | nil => rfl
  | cons path paths ih =>
    have hnone : applySlot none (.del path) = none := by
      cases path <;> rfl
    rw [map_cons, foldl_cons, hnone, ih]

theorem foldl_del_of_nil_mem (h : [] ∈ paths) (s : Option Out) :
    (paths.map Edit.del).foldl applySlot s = none := by
  obtain ⟨before, after, rfl⟩ := append_of_mem h
  rw [map_append, foldl_append, map_cons, foldl_cons]
  exact foldl_del_none after

theorem foldl_of_set_nil {v : Raw} (h : Edit.set [] v ∈ edits) (s s' : Option Out) :
    edits.foldl applySlot s = edits.foldl applySlot s' := by
  obtain ⟨before, after, rfl⟩ := append_of_mem h
  rw [foldl_append, foldl_append, foldl_cons, foldl_cons]
  rfl

/-- The value at a path below a value of the payload; the empty path is the value. -/
def getFrom (t : Option Raw) : List String → Option Raw
  | [] => t
  | seg :: rest => (t.bind parseObject).bind fun members => getPath members (seg :: rest)

def memberOf (t : Option Raw) (k : String) : Option Raw :=
  (t.bind parseObject).bind fun members => members.lookup k

theorem getPath_cons (members : List (String × Raw)) (seg : String) (rest : List String) :
    getPath members (seg :: rest) = getFrom (members.lookup seg) rest := by
  cases rest with
  | nil => rfl
  | cons next rest =>
    cases hv : members.lookup seg with
    | none | some v => simp [getPath, getFrom, hv]

theorem getFrom_cons (t : Option Raw) (seg : String) (rest : List String) :
    getFrom t (seg :: rest) = getFrom (memberOf t seg) rest := by
  unfold memberOf
  rw [getFrom]
  cases t.bind parseObject with
  | none =>
    cases rest with
    | nil | cons next rest => rfl
  | some members => exact getPath_cons members seg rest

theorem isSome_getFrom_of_append {front back : List String}
    (h : (getFrom t (front ++ back)).isSome) : (getFrom t front).isSome := by
  induction front generalizing t with
  | nil =>
    cases back with
    | nil => exact h
    | cons seg rest =>
      cases t with
      | none => cases h
      | some v => rfl
  | cons seg front ih =>
    rw [cons_append, getFrom_cons] at h
    rw [getFrom_cons]
    exact ih h

def tails (k : String) (paths : List (List String)) : List (List String) :=
  paths.filterMap fun
    | [] => none
    | seg :: rest => if seg = k then some rest else none

theorem mem_tails {k : String} {rest : List String} : rest ∈ tails k paths ↔ k :: rest ∈ paths := by
  simp only [tails, mem_filterMap]
  constructor
  · rintro ⟨path, hpath, hrest⟩
    cases path with
    | nil => cases hrest
    | cons seg rest' =>
      simp only [Option.ite_none_right_eq_some, Option.some.injEq] at hrest
      obtain ⟨rfl, rfl⟩ := hrest
      exact hpath
  · intro h
    exact ⟨k :: rest, h, by simp⟩

def copies (f : Raw → Raw) (t : Option Raw) (paths : List (List String)) : List Edit :=
  paths.filterMap fun path => (getFrom t path).map fun v => .set path (f v)

theorem mem_copies {f : Raw → Raw} {e : Edit} :
    e ∈ copies f t paths ↔ ∃ path ∈ paths, ∃ v, getFrom t path = some v ∧ e = .set path (f v) := by
  simp only [copies, mem_filterMap, Option.map_eq_some_iff]
  constructor
  · rintro ⟨path, hpath, v, hv, rfl⟩
    exact ⟨path, hpath, v, hv, rfl⟩
  · rintro ⟨path, hpath, v, hv, rfl⟩
    exact ⟨path, hpath, v, hv, rfl⟩

theorem copies_under (f : Raw → Raw) (t : Option Raw) (paths : List (List String)) (k : String) :
    (copies f t paths).filterMap (Edit.under k) = copies f (memberOf t k) (tails k paths) := by
  induction paths with
  | nil => rfl
  | cons path paths ih =>
    unfold copies tails at ih ⊢
    rw [filterMap_cons, filterMap_cons]
    cases path with
    | nil =>
      cases t with
      | none | some v => exact ih
    | cons seg rest =>
      by_cases hseg : seg = k
      · subst hseg
        rw [getFrom_cons]
        cases hv : getFrom (memberOf t seg) rest with
        | none => simpa [hv] using ih
        | some v => simpa [hv, Edit.under] using ih
      · cases hv : getFrom t (seg :: rest) with
        | none => simpa [hseg] using ih
        | some v => simpa [hseg, Edit.under] using ih

theorem dels_under (paths : List (List String)) (k : String) :
    (paths.map Edit.del).filterMap (Edit.under k) = (tails k paths).map Edit.del := by
  induction paths with
  | nil => rfl
  | cons path paths ih =>
    unfold tails at ih ⊢
    rw [map_cons, filterMap_cons, filterMap_cons]
    cases path with
    | nil => exact ih
    | cons seg rest =>
      by_cases hseg : seg = k
      · simpa [hseg, Edit.under] using ih
      · simpa [hseg, Edit.under] using ih

end Fabriq.Analytics.RedactEdits
