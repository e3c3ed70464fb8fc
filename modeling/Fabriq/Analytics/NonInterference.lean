import Fabriq.Analytics.RedactAgree

namespace Fabriq.Analytics.NonInterference

open Analytics.Redact Analytics.RedactEdits Analytics.RedactAgree List

variable {codec : Codec} {f : Raw → Raw} {included hashed excluded : List (List String)}
  {t t' : Option Raw}

theorem lookup_deepConvert (members : List (String × Raw)) (k : String) :
    (deepConvert members).lookup k = (members.lookup k).map convert := by
  induction members with
  | nil => rfl
  | cons e rest ih =>
    obtain ⟨j, v⟩ := e
    rw [deepConvert, lookup_cons, lookup_cons]
    cases k == j with
    | true => rfl
    | false => exact ih

theorem mem_edits_path (hinc : [] ∉ included) (hhashed : [] ∉ hashed)
    (hexcl : [] ∉ excluded) : ∀ e ∈ edits f included hashed excluded t, e.path ≠ [] := by
  intro e he
  rcases mem_append.mp he with he | he
  · obtain ⟨path, hpath, v, -, rfl⟩ := mem_copies.mp he
    exact fun h => hinc (h ▸ hpath)
  · rcases mem_append.mp he with he | he
    · obtain ⟨path, hpath, v, -, rfl⟩ := mem_copies.mp he
      exact fun h => hhashed (h ▸ hpath)
    · obtain ⟨path, hpath, rfl⟩ := mem_map.mp he
      exact fun h => hexcl (h ▸ hpath)

theorem free_nil (hhashed : [] ∉ hashed) (hexcl : [] ∉ excluded) : Free hashed excluded [] := by
  intro r hr hprefix
  obtain rfl := prefix_nil.mp hprefix
  rcases mem_append.mp hr with hr | hr
  · exact hexcl hr
  · exact hhashed hr

def Within (n : Nat) (included hashed excluded : List (List String)) : Prop :=
  ∀ r ∈ included ++ (hashed ++ excluded), r.length ≤ n

variable {n : Nat} {paths : List (List String)}

theorem Within.tails (h : Within (n + 1) included hashed excluded) (k : String) :
    Within n (tails k included) (tails k hashed) (tails k excluded) := by
  intro r hr
  simp only [mem_append, RedactEdits.mem_tails] at hr
  have hlen := h (k :: r) (by simpa only [mem_append] using hr)
  simpa using hlen

theorem Within.afterLast (h : Within n included hashed excluded) :
    Within n (afterLast included) hashed excluded := by
  intro r hr
  rcases mem_append.mp hr with hr | hr
  · exact h r (mem_append_left _ (mem_of_mem_afterLast hr))
  · exact h r (mem_append_right _ hr)

theorem edits_ne_nil (h : Taken hashed excluded t []) :
    edits f included hashed excluded t ≠ [] := by
  rcases h with ⟨e, he, -⟩ | ⟨r, hr, -, hsome⟩
  · have hmem : Edit.del e ∈ excluded.map Edit.del := mem_map_of_mem he
    exact append_ne_nil_of_right_ne_nil _ (append_ne_nil_of_right_ne_nil _ (ne_nil_of_mem hmem))
  · obtain ⟨v, hv⟩ := Option.isSome_iff_exists.mp hsome
    have hmem : Edit.set r (f v) ∈ copies f t hashed := mem_copies.mpr ⟨r, hr, v, hv, rfl⟩
    exact append_ne_nil_of_right_ne_nil _ (append_ne_nil_of_left_ne_nil (ne_nil_of_mem hmem) _)

theorem lookup_edits_object (text : String) (members : List (String × Raw))
    (out : List (String × Out)) (k : String) :
    ((edits f included hashed excluded (some (.object text members))).foldl applyMap out).lookup k =
      (edits f (tails k included) (tails k hashed) (tails k excluded) (members.lookup k)).foldl
        applySlot (out.lookup k) := by
  rw [lookup_applyAll, edits_under]
  rfl

theorem sameOut_covered (n : Nat) (hwithin : Within n included hashed excluded)
    (hhashed : [] ∉ hashed) (hexcl : [] ∉ excluded)
    (hsame : ∀ q, Free hashed excluded q → SameAt hashed excluded t t' q)
    (hagree : HashAgree hashed f t t') (start : Raw → Out)
    (hstart : ∀ text members, asMap (some (start (.object text members))) =
      some (deepConvert members)) :
    SameOut codec ((edits f included hashed excluded t).foldl applySlot (t.map start))
      ((edits f included hashed excluded t').foldl applySlot (t'.map start)) := by
  induction n generalizing included hashed excluded t t' start with
  | zero =>
    rcases hsame [] (free_nil hhashed hexcl) with heq | ⟨-, -, htaken⟩
    · obtain rfl : t = t' := heq
      rfl
    · -- Something below would be a path with a segment.
      exfalso
      rcases htaken with ⟨e, he, -, hne⟩ | ⟨r, hr, ⟨-, hne⟩, -⟩
      · have hlen := hwithin e (by simp [he])
        exact hne (eq_nil_of_length_eq_zero (by omega)).symm
      · have hlen := hwithin r (by simp [hr])
        exact hne (eq_nil_of_length_eq_zero (by omega)).symm
  | succ n ih =>
    rcases hsame [] (free_nil hhashed hexcl) with heq | ⟨hobj, hobj', htaken⟩
    · obtain rfl : t = t' := heq
      rfl
    obtain ⟨text, members, rfl⟩ : IsObject t := hobj
    obtain ⟨text', members', rfl⟩ : IsObject t' := hobj'
    have htaken' : Taken hashed excluded (some (.object text' members')) [] := by
      refine htaken.imp_right ?_
      rintro ⟨r, hr, hbelow, hsome⟩
      exact ⟨r, hr, hbelow, by rwa [← hagree.isSome_eq hr]⟩
    -- Without the copies of the whole value, every edit is below the object.
    have hreset : ∀ v : Raw,
        (edits f included hashed excluded (some v)).foldl applySlot ((some v).map start) =
          (edits f (afterLast included) hashed excluded (some v)).foldl applySlot
            (some (if [] ∈ included then .raw v else start v)) := by
      intro v
      rw [foldl_edits, foldl_edits, foldl_copies_afterLast]
      congr 2
      split <;> rfl
    rw [hreset, hreset]
    have hmap : ∀ text members, asMap (some (if [] ∈ included then .raw (.object text members)
          else start (.object text members))) = some (deepConvert members) := by
      intro text members
      split
      · rfl
      · exact hstart text members
    have hpaths {v : Option Raw} := mem_edits_path (f := f) (t := v)
      (nil_not_mem_afterLast included) hhashed hexcl
    rw [foldl_applySlot_map (hmap text members) hpaths (edits_ne_nil htaken),
      foldl_applySlot_map (hmap text' members') hpaths (edits_ne_nil htaken')]
    refine SameOut.map fun k => ?_
    rw [lookup_edits_object, lookup_edits_object, lookup_deepConvert, lookup_deepConvert]
    have hmember := hagree.member k
    refine sameOut_of_main hmember (fun h => by rw [h]; rfl) (fun h => by rw [h]; rfl) ?_
    intro hexcluded' hhashed'
    refine ih (hwithin.afterLast.tails k) hhashed' hexcluded' (fun q hq => ?_) hmember
      _ fun _ _ => rfl
    exact (hsame (k :: q) (hq.cons hexcl hhashed)).member

def Touched (included hashed : List (List String)) (t : Option Raw) : Prop :=
  ∃ r ∈ included ++ hashed, (getFrom t r).isSome = true

theorem copies_eq_nil {g : Raw → Raw}
    (h : ∀ r ∈ paths, ¬(getFrom t r).isSome) : copies g t paths = [] := by
  refine eq_nil_iff_forall_not_mem.mpr fun e he => ?_
  obtain ⟨path, hpath, v, hv, -⟩ := mem_copies.mp he
  exact h path hpath (by rw [hv]; rfl)

theorem foldl_edits_untouched (h : ¬Touched included hashed t) :
    (edits f included hashed excluded t).foldl applySlot none = none := by
  have hnone : ∀ r ∈ included ++ hashed, ¬(getFrom t r).isSome := fun r hr hsome => h ⟨r, hr, hsome⟩
  unfold edits
  rw [copies_eq_nil fun r hr => hnone r (mem_append_left _ hr),
    copies_eq_nil fun r hr => hnone r (mem_append_right _ hr)]
  exact foldl_del_none excluded

theorem foldl_edits_touched (hinc : [] ∉ included) (hhashed : [] ∉ hashed)
    (hexcl : [] ∉ excluded) (h : Touched included hashed t) :
    (edits f included hashed excluded t).foldl applySlot none =
      some (.map ((edits f included hashed excluded t).foldl applyMap [])) := by
  have hpaths := mem_edits_path (f := f) (t := t) hinc hhashed hexcl
  have hsplit : edits f included hashed excluded t =
      (copies id t included ++ copies f t hashed) ++ excluded.map Edit.del :=
    (append_assoc _ _ _).symm
  have hsets : copies id t included ++ copies f t hashed ≠ [] := by
    obtain ⟨r, hr, hsome⟩ := h
    obtain ⟨v, hv⟩ := Option.isSome_iff_exists.mp hsome
    rcases mem_append.mp hr with hr | hr
    · exact append_ne_nil_of_left_ne_nil (ne_nil_of_mem (mem_copies.mpr ⟨r, hr, v, hv, rfl⟩)) _
    · exact append_ne_nil_of_right_ne_nil _ (ne_nil_of_mem (mem_copies.mpr ⟨r, hr, v, hv, rfl⟩))
  obtain ⟨first, rest, hfirst⟩ := exists_cons_of_ne_nil hsets
  have hset : ∃ path v, first = .set path v := by
    have hmem : first ∈ copies id t included ++ copies f t hashed := hfirst ▸ mem_cons_self
    rcases mem_append.mp hmem with hmem | hmem
    · obtain ⟨path, -, v, -, rfl⟩ := mem_copies.mp hmem
      exact ⟨path, _, rfl⟩
    · obtain ⟨path, -, v, -, rfl⟩ := mem_copies.mp hmem
      exact ⟨path, _, rfl⟩
  obtain ⟨path, v, rfl⟩ := hset
  rw [hfirst, cons_append] at hsplit
  rw [hsplit] at hpaths ⊢
  exact foldl_applySlot_none (hpaths _ mem_cons_self) v fun e he => hpaths e (mem_cons_of_mem _ he)

/-- An included path at or below an excluded one leaves no trace: the exclusion is at this
field, within another or an included path, or the path is hashed. -/
def Masked (included hashed excluded : List (List String)) : Prop :=
  ∀ p ∈ included, ∀ e ∈ excluded, e <+: p →
    e = [] ∨ (∃ e' ∈ excluded, e' <+: e ∧ e' ≠ e) ∨ (∃ p' ∈ included, p' <+: e ∧ p' ≠ e) ∨
      ∃ h ∈ hashed, h <+: p

theorem exists_tail {k : String} (hnil : [] ∉ paths)
    {r : List String} (h : ∃ r' ∈ paths, r' <+: k :: r ∧ r' ≠ k :: r) :
    ∃ r' ∈ tails k paths, r' <+: r ∧ r' ≠ r := by
  obtain ⟨r', hr', hprefix, hne⟩ := h
  rcases prefix_cons_iff.mp hprefix with rfl | ⟨rest, rfl, hrest⟩
  · exact absurd hr' hnil
  · exact ⟨rest, mem_tails.mpr hr', hrest, fun heq => hne (congrArg (k :: ·) heq)⟩

theorem Masked.tails (h : Masked included hashed excluded) (hinc : [] ∉ included)
    (hhashed : [] ∉ hashed) (hexcl : [] ∉ excluded) (k : String) :
    Masked (tails k included) (tails k hashed) (tails k excluded) := by
  intro p hp e he hprefix
  rcases h (k :: p) (mem_tails.mp hp) (k :: e) (mem_tails.mp he)
    (cons_prefix_cons.mpr ⟨rfl, hprefix⟩) with hnil | hexclude | hinclude | ⟨r, hr, hle⟩
  · cases hnil
  · exact .inr (.inl (exists_tail hexcl hexclude))
  · exact .inr (.inr (.inl (exists_tail hinc hinclude)))
  · rcases prefix_cons_iff.mp hle with rfl | ⟨rest, rfl, hrest⟩
    · exact absurd hr hhashed
    · exact .inr (.inr (.inr ⟨rest, mem_tails.mpr hr, hrest⟩))

theorem isSome_of_sameAt {q : List String} (h : SameAt hashed excluded t t' q)
    (hsome : (getFrom t q).isSome) : (getFrom t' q).isSome := by
  rcases h with heq | ⟨-, ⟨text, members, hobj⟩, -⟩
  · rwa [← heq]
  · rw [hobj]
    rfl

theorem Touched.other (hmasked : Masked included hashed excluded) (hexcl : [] ∉ excluded)
    (hsame : ∀ q, (∃ p ∈ included, p <+: q) → Free hashed excluded q →
      SameAt hashed excluded t t' q)
    (hagree : HashAgree hashed f t t') (h : Touched included hashed t) :
    Touched included hashed t' := by
  have hhash : ∀ r ∈ hashed, (getFrom t r).isSome → Touched included hashed t' :=
    fun r hr hsome => ⟨r, mem_append_right _ hr, by rwa [← hagree.isSome_eq hr]⟩
  obtain ⟨p, hp, hsome⟩ := h
  rcases mem_append.mp hp with hp | hp
  swap
  · exact hhash p hp hsome
  by_cases hhashed : ∃ r ∈ hashed, r <+: p
  · obtain ⟨r, hr, more, rfl⟩ := hhashed
    exact hhash r hr (isSome_getFrom_of_append hsome)
  have hnotHashed : ∀ r ∈ hashed, ¬r <+: p := fun r hr hle => hhashed ⟨r, hr, hle⟩
  have hvisible : ∀ q, q <+: p → (∃ p' ∈ included, p' <+: q) →
      (∀ e ∈ excluded, ¬e <+: q) → (getFrom t' q).isSome := by
    rintro q ⟨more, rfl⟩ hbelow hnotExcluded
    refine isSome_of_sameAt (hsame q hbelow fun r hr hle => ?_) (isSome_getFrom_of_append hsome)
    rcases mem_append.mp hr with hr | hr
    · exact hnotExcluded r hr hle
    · exact hnotHashed r hr (hle.trans (prefix_append q more))
  -- By the length of an exclusion on the way to the path: there is a shorter one, or an
  -- included path before it that is still visible.
  have hshorter : ∀ n, ∀ e ∈ excluded, e.length ≤ n → e <+: p → Touched included hashed t' := by
    intro n
    induction n with
    | zero =>
      intro e he hlen
      have hnil : e = [] := eq_nil_of_length_eq_zero (by omega)
      exact absurd (hnil ▸ he) hexcl
    | succ n ih =>
      intro e he hlen hle
      by_cases hproper : ∃ e' ∈ excluded, e' <+: e ∧ e' ≠ e
      · obtain ⟨e', he', hle', hne⟩ := hproper
        have hlt : e'.length < e.length := hle'.length_le.lt_of_ne fun heq =>
          hne (hle'.eq_of_length heq)
        exact ih e' he' (by omega) (hle'.trans hle)
      · rcases hmasked p hp e he hle with rfl | hex | ⟨p', hp', hle', hne⟩ | ⟨r, hr, hle'⟩
        · exact absurd he hexcl
        · exact absurd hex hproper
        · refine ⟨p', mem_append_left _ hp', hvisible p' (hle'.trans hle)
            ⟨p', hp', prefix_refl p'⟩ fun e' he' hle'' => ?_⟩
          refine hproper ⟨e', he', hle''.trans hle', fun heq => hne ?_⟩
          subst heq
          exact hle'.eq_of_length (Nat.le_antisymm hle'.length_le hle''.length_le)
        · exact absurd hle' (hnotHashed r hr)
  by_cases habove : ∃ e ∈ excluded, e <+: p
  · obtain ⟨e, he, hle⟩ := habove
    exact hshorter e.length e he le_rfl hle
  · exact ⟨p, mem_append_left _ hp, hvisible p (prefix_refl p)
      ⟨p, hp, prefix_refl p⟩ fun e he hle => habove ⟨e, he, hle⟩⟩

theorem sameOut_included (hwithin : Within n included hashed excluded)
    (hinc : [] ∈ included) (hhashed : [] ∉ hashed) (hexcl : [] ∉ excluded)
    (hsame : ∀ q, Free hashed excluded q → SameAt hashed excluded t t' q)
    (hagree : HashAgree hashed f t t') :
    SameOut codec ((edits f included hashed excluded t).foldl applySlot none)
      ((edits f included hashed excluded t').foldl applySlot none) := by
  rcases hsame [] (free_nil hhashed hexcl) with heq | ⟨⟨_, _, hobj⟩, ⟨_, _, hobj'⟩, -⟩
  · obtain rfl : t = t' := heq
    rfl
  · have hstart : ∀ v : Raw, (edits f included hashed excluded (some v)).foldl applySlot none =
        (edits f (afterLast included) hashed excluded (some v)).foldl applySlot
          ((some v).map Out.raw) := by
      intro v
      rw [foldl_edits, foldl_edits, foldl_copies_afterLast, if_pos hinc]
      rfl
    have hcovered : SameOut codec _ _ := sameOut_covered n hwithin.afterLast hhashed hexcl
      hsame hagree Out.raw fun _ _ => rfl
    subst hobj hobj'
    rw [hstart, hstart]
    exact hcovered

theorem sameOut_uncovered (n : Nat) (hwithin : Within n included hashed excluded)
    (hhashed : [] ∉ hashed) (hexcl : [] ∉ excluded) (hmasked : Masked included hashed excluded)
    (hsame : ∀ q, (∃ p ∈ included, p <+: q) → Free hashed excluded q →
      SameAt hashed excluded t t' q) (hagree : HashAgree hashed f t t') :
    SameOut codec ((edits f included hashed excluded t).foldl applySlot none)
      ((edits f included hashed excluded t').foldl applySlot none) := by
  induction n generalizing included hashed excluded t t' with
  | zero =>
    by_cases hinc : [] ∈ included
    · exact sameOut_included hwithin hinc hhashed hexcl
        (fun q => hsame q ⟨[], hinc, nil_prefix⟩) hagree
    · have huntouched : ∀ v, ¬Touched included hashed v := by
        rintro v ⟨r, hr, -⟩
        have hlen := hwithin r (by rw [← append_assoc]; exact mem_append_left _ hr)
        have hnil : r = [] := eq_nil_of_length_eq_zero (by omega)
        rcases mem_append.mp hr with hr | hr
        · exact hinc (hnil ▸ hr)
        · exact hhashed (hnil ▸ hr)
      rw [foldl_edits_untouched (huntouched t), foldl_edits_untouched (huntouched t')]
      rfl
  | succ n ih =>
    by_cases hinc : [] ∈ included
    · exact sameOut_included hwithin hinc hhashed hexcl
        (fun q => hsame q ⟨[], hinc, nil_prefix⟩) hagree
    by_cases htouched : Touched included hashed t
    · have htouched' := htouched.other hmasked hexcl hsame hagree
      rw [foldl_edits_touched hinc hhashed hexcl htouched,
        foldl_edits_touched hinc hhashed hexcl htouched']
      refine SameOut.map fun k => ?_
      rw [lookup_applyAll, lookup_applyAll, edits_under, edits_under]
      have hmember := hagree.member k
      refine sameOut_of_main hmember (fun _ => rfl) (fun _ => rfl) ?_
      intro hexcluded' hhashed'
      refine ih (hwithin.tails k) hhashed' hexcluded'
        (hmasked.tails hinc hhashed hexcl k) (fun q hq hfree => ?_) hmember
      obtain ⟨p, hp, hle⟩ := hq
      exact (hsame (k :: q) ⟨k :: p, mem_tails.mp hp, cons_prefix_cons.mpr ⟨rfl, hle⟩⟩
        (hfree.cons hexcl hhashed)).member
    · have htouched' : ¬Touched included hashed t' := fun h =>
        htouched (h.other hmasked hexcl
          (fun q hq hfree => (hsame q hq hfree).symm hagree) hagree.symm)
      rw [foldl_edits_untouched htouched, foldl_edits_untouched htouched']
      rfl

end Fabriq.Analytics.NonInterference
