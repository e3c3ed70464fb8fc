import Fabriq.Analytics.NonInterference

namespace Fabriq.Analytics.RedactVisible

open Analytics.Redact Analytics.RedactEdits Analytics.RedactAgree Analytics.NonInterference List
open Lib.Assoc

def paths (names : List String) : List (List String) :=
  names.map splitPath

/-- A path that the spec allows once excluded and hashed paths are taken out. -/
def Visible (spec : AnalyticsSpec) (q : List String) : Prop :=
  (spec.includeAll = true ∨ ∃ p ∈ paths spec.included, p <+: q) ∧
    Free (paths spec.hashed) (paths spec.excluded) q

/-- Two payloads that differ only in what the spec keeps back. -/
structure Agree (codec : Codec) (spec : AnalyticsSpec) (salt : String) (payload payload' : Raw) :
    Prop where
  visible : ∀ q, q ≠ [] → Visible spec q →
    SameAt (paths spec.hashed) (paths spec.excluded) (some payload) (some payload') q
  hashes : HashAgree (paths spec.hashed) (hashValue codec salt) (some payload) (some payload')

/-- No included path is at or below an excluded path whose parent it would bring into the
output on its own. -/
def Clear (spec : AnalyticsSpec) : Prop :=
  spec.includeAll = true ∨
    ∀ p ∈ paths spec.included, ∀ e ∈ paths spec.excluded, e <+: p →
      e.length ≤ 1 ∨ (∃ e' ∈ paths spec.excluded, e' <+: e ∧ e' ≠ e) ∨
        (∃ p' ∈ paths spec.included, p' <+: e ∧ p' ≠ e) ∨ ∃ h ∈ paths spec.hashed, h <+: p

theorem nil_not_mem_paths (names : List String) : [] ∉ paths names := by
  intro h
  obtain ⟨name, -, hnil⟩ := mem_map.mp h
  exact splitOnP_ne_nil _ _ (map_eq_nil_iff.mp hnil)

variable {codec : Codec} {spec : AnalyticsSpec} {salt : String}

theorem getFrom_object (text : String) (top : List (String × Raw)) {segs : List String}
    (h : segs ≠ []) : getFrom (some (.object text top)) segs = getPath top segs := by
  obtain ⟨seg, rest, rfl⟩ := exists_cons_of_ne_nil h
  rfl

theorem foldl_copyPath (text : String) (top : List (String × Raw)) (g : Raw → Raw)
    (names : List String) (out : List (String × Out)) :
    names.foldl (copyPath top g) out =
      (copies g (some (.object text top)) (paths names)).foldl applyMap out := by
  induction names generalizing out with
  | nil => rfl
  | cons name names ih =>
    have hne : splitPath name ≠ [] := fun h => nil_not_mem_paths [name] (by simp [paths, h])
    have hcons : copies g (some (.object text top)) (paths (name :: names)) =
        ((getPath top (splitPath name)).map fun v => Edit.set (splitPath name) (g v)).toList ++
          copies g (some (.object text top)) (paths names) := by
      unfold copies paths
      rw [map_cons, filterMap_cons, getFrom_object text top hne]
      cases getPath top (splitPath name) <;> rfl
    rw [foldl_cons, ih, hcons, foldl_append]
    unfold copyPath
    cases getPath top (splitPath name) <;> rfl

theorem redactObject_eq (text : String) (top : List (String × Raw)) :
    redactObject codec spec salt top =
      (edits (hashValue codec salt) (if spec.includeAll then [] else paths spec.included)
        (paths spec.hashed) (paths spec.excluded) (some (.object text top))).foldl applyMap
          (if spec.includeAll then deepConvert top else []) := by
  have hdels : ∀ out, spec.excluded.foldl (fun out path => deletePath out (splitPath path)) out =
      ((paths spec.excluded).map Edit.del).foldl applyMap out := by
    intro out
    rw [paths, foldl_map, foldl_map]
    rfl
  unfold redactObject edits
  rw [foldl_append, foldl_append, hdels, foldl_copyPath text]
  cases spec.includeAll with
  | true => rfl
  | false =>
    simp only [Bool.false_eq_true, if_false]
    rw [foldl_copyPath text]

theorem exists_within (included hashed excluded : List (List String)) :
    ∃ n, Within n included hashed excluded := by
  refine ⟨((included ++ (hashed ++ excluded)).map List.length).foldr max 0, fun r hr => ?_⟩
  generalize included ++ (hashed ++ excluded) = all at hr
  induction all with
  | nil => cases hr
  | cons first rest ih =>
    rcases mem_cons.mp hr with rfl | hr
    · exact Nat.le_max_left _ _
    · exact Nat.le_trans (ih hr) (Nat.le_max_right _ _)

theorem masked_tails (h : ∀ p ∈ paths spec.included, ∀ e ∈ paths spec.excluded, e <+: p →
      e.length ≤ 1 ∨ (∃ e' ∈ paths spec.excluded, e' <+: e ∧ e' ≠ e) ∨
        (∃ p' ∈ paths spec.included, p' <+: e ∧ p' ≠ e) ∨ ∃ h ∈ paths spec.hashed, h <+: p)
    (k : String) :
    Masked (tails k (paths spec.included)) (tails k (paths spec.hashed))
      (tails k (paths spec.excluded)) := by
  intro p hp e he hle
  rcases h (k :: p) (mem_tails.mp hp) (k :: e) (mem_tails.mp he)
    (cons_prefix_cons.mpr ⟨rfl, hle⟩) with hlen | hex | hin | ⟨r, hr, hle'⟩
  · exact .inl (eq_nil_of_length_eq_zero (by simpa using hlen))
  · exact .inr (.inl (exists_tail (nil_not_mem_paths _) hex))
  · exact .inr (.inr (.inl (exists_tail (nil_not_mem_paths _) hin)))
  · rcases prefix_cons_iff.mp hle' with rfl | ⟨rest, rfl, hrest⟩
    · exact absurd hr (nil_not_mem_paths _)
    · exact .inr (.inr (.inr ⟨rest, mem_tails.mpr hr, hrest⟩))

theorem redact_eq_of_agree (hclear : Clear spec) {text text' : String}
    {top top' : List (String × Raw)}
    (h : Agree codec spec salt (.object text top) (.object text' top')) :
    marshalCanonical codec (redactObject codec spec salt top) =
      marshalCanonical codec (redactObject codec spec salt top') := by
  obtain ⟨n, hwithin⟩ := exists_within _
    (paths spec.hashed) (paths spec.excluded)
  rw [redactObject_eq text, redactObject_eq text']
  refine marshal_map_congr fun k => ?_
  rw [lookup_edits_object, lookup_edits_object]
  have hmember := h.hashes.member k
  have hwithin' : Within n (tails k (if spec.includeAll then [] else paths spec.included))
      (tails k _) (tails k _) :=
    fun r hr => Nat.le_of_succ_le (by
      simp only [mem_append, RedactEdits.mem_tails] at hr
      exact hwithin (k :: r) (by simpa only [mem_append] using hr))
  cases hall : spec.includeAll with
  | true =>
    rw [if_pos rfl, if_pos rfl, if_pos rfl, lookup_deepConvert, lookup_deepConvert]
    rw [hall] at hwithin'
    refine sameOut_of_main hmember (fun h => by rw [show top.lookup k = none from h]; rfl)
      (fun h => by rw [show top'.lookup k = none from h]; rfl) ?_
    intro hexcl hhashed
    refine sameOut_covered n hwithin' hhashed hexcl (fun q hq => ?_) hmember _ fun _ _ => rfl
    exact (h.visible (k :: q) (cons_ne_nil k q)
      ⟨.inl hall, hq.cons (nil_not_mem_paths _) (nil_not_mem_paths _)⟩).member
  | false =>
    have hmasked := hclear.resolve_left (by simp [hall])
    rw [hall, if_neg (by simp)] at hwithin'
    refine sameOut_of_main hmember (fun _ => rfl) (fun _ => rfl) ?_
    intro hexcl hhashed
    refine sameOut_uncovered n hwithin' hhashed hexcl (masked_tails hmasked k)
      (fun q hq hfree => ?_) hmember
    obtain ⟨p, hp, hle⟩ := hq
    exact (h.visible (k :: q) (cons_ne_nil k q)
      ⟨.inr ⟨k :: p, mem_tails.mp hp, cons_prefix_cons.mpr ⟨rfl, hle⟩⟩,
        hfree.cons (nil_not_mem_paths _) (nil_not_mem_paths _)⟩).member

def nest (codec : Codec) : List String → Raw
  | [] => .leaf "0"
  | k :: rest =>
    .object ("\x7b" ++ codec.quote k ++ ":" ++ (nest codec rest).text ++ "\x7d") [(k, nest codec rest)]

theorem getFrom_nest (p : List String) : getFrom (some (nest codec p)) p = some (.leaf "0") := by
  induction p with
  | nil => rfl
  | cons k p ih =>
    rw [getFrom_cons]
    have hmember : memberOf (some (nest codec (k :: p))) k = some (nest codec p) := by
      simp [memberOf, nest, parseObject]
    rw [hmember, ih]

theorem prefix_of_getFrom_nest {p q : List String}
    (h : (getFrom (some (nest codec p)) q).isSome) : q <+: p := by
  induction p generalizing q with
  | nil =>
    cases q with
    | nil => exact nil_prefix
    | cons j q => simp [getFrom_cons, memberOf, nest, parseObject] at h; cases q <;> simp [getFrom] at h
  | cons k p ih =>
    cases q with
    | nil => exact nil_prefix
    | cons j q =>
      rw [getFrom_cons] at h
      by_cases hkey : j = k
      · subst hkey
        have hmember : memberOf (some (nest codec (j :: p))) j = some (nest codec p) := by
          simp [memberOf, nest, parseObject]
        rw [hmember] at h
        exact cons_prefix_cons.mpr ⟨rfl, ih h⟩
      · have hmember : memberOf (some (nest codec (k :: p))) j = none := by
          simp [memberOf, nest, parseObject, hkey]
        rw [hmember] at h
        cases q <;> simp [getFrom] at h

theorem getFrom_empty {q : List String} (hq : q ≠ []) (text : String) :
    getFrom (some (.object text [])) q = none := by
  obtain ⟨k, rest, rfl⟩ := exists_cons_of_ne_nil hq
  cases rest <;> rfl

theorem length_joinComma_pos {part : String} {rest : List String} (h : 0 < part.length) :
    0 < (joinComma (part :: rest)).length := by
  cases rest with
  | nil => exact h
  | cons next rest =>
    rw [joinComma, String.length_append, String.length_append]
    omega

theorem marshalCanonical_ne_empty {out : List (String × Out)} {k : String}
    (h : (out.lookup k).isSome) : marshalCanonical codec out ≠ marshalCanonical codec [] := by
  have hkey : k ∈ ((marshalMembers codec out).map Prod.fst).dedup.insertionSort (· ≤ ·) := by
    rw [mem_insertionSort, mem_dedup, ← isSome_lookup_iff, lookup_marshalMembers, Option.isSome_map]
    exact h
  obtain ⟨first, rest, hfirst⟩ := exists_cons_of_ne_nil (ne_nil_of_mem hkey)
  have hlen : ∀ members, (joinMembers codec members).length =
      1 + (joinComma (((members.map Prod.fst).dedup.insertionSort (· ≤ ·)).map fun k =>
        codec.quote k ++ ":" ++ (members.lookup k).getD "")).length + 1 := by
    intro members
    unfold joinMembers
    rw [String.length_append, String.length_append]
    rfl
  have hpos : 0 < (joinComma
      ((((marshalMembers codec out).map Prod.fst).dedup.insertionSort (· ≤ ·)).map fun k =>
         codec.quote k ++ ":" ++ ((marshalMembers codec out).lookup k).getD "")).length := by
    rw [hfirst, map_cons]
    refine length_joinComma_pos ?_
    have hcolon : ":".length = 1 := rfl
    rw [String.length_append, String.length_append]
    omega
  intro heq
  have hlens := congrArg String.length heq
  unfold marshalCanonical at hlens
  rw [marshal, marshal, hlen, hlen, marshalMembers] at hlens
  have hempty : (joinComma []).length = 0 := rfl
  simp only [map_nil, dedup_nil, insertionSort_nil, hempty] at hlens
  omega

theorem redactObject_empty (hall : spec.includeAll = false) :
    redactObject codec spec salt [] = [] := by
  have hcopies : ∀ (g : Raw → Raw) (names : List String),
      copies g (some (.object "\x7b\x7d" [])) (paths names) = [] := by
    intro g names
    refine copies_eq_nil fun r hr => ?_
    rw [getFrom_empty (fun h => nil_not_mem_paths names (h ▸ hr))]
    simp
  have hdel : ∀ path, deletePath [] path = [] := by
    intro path
    match path with
    | [] | [_] | _ :: _ :: _ => rfl
  rw [redactObject_eq _, hall, if_neg (by simp), if_neg (by simp)]
  unfold edits
  rw [hcopies, hcopies, nil_append, nil_append, foldl_map]
  induction paths spec.excluded with
  | nil => rfl
  | cons path rest ih =>
    show List.foldl _ (deletePath [] path) rest = []
    rw [hdel, ih]

theorem exists_trace (codec : Codec) (salt : String) (hclear : ¬Clear spec) : ∃ payload payload',
    Agree codec spec salt payload payload' ∧
      ∃ text top text' top', payload = .object text top ∧ payload' = .object text' top' ∧
        marshalCanonical codec (redactObject codec spec salt top) ≠
          marshalCanonical codec (redactObject codec spec salt top') := by
  unfold Clear at hclear
  push Not at hclear
  obtain ⟨hall, p, hp, e, he, hle, hlen, hshorter, hinner, hhash⟩ := hclear
  have hall : spec.includeAll = false := by simpa using hall
  have hhashNone : ∀ r ∈ paths spec.hashed, getFrom (some (nest codec p)) r = none := by
    intro r hr
    rw [← Option.not_isSome_iff_eq_none]
    exact fun hsome => hhash r hr (prefix_of_getFrom_nest hsome)
  have hagree : Agree codec spec salt (nest codec p) (.object "\x7b\x7d" []) := by
    constructor
    · intro q hq hvisible
      refine .inl ?_
      rw [getFrom_empty hq, ← Option.not_isSome_iff_eq_none]
      intro hsome
      -- A visible beginning of the path is an included path within the exclusion.
      have hqp := prefix_of_getFrom_nest hsome
      obtain ⟨hinc, hfree⟩ := hvisible
      obtain ⟨p', hp', hp'q⟩ := hinc.resolve_left (by simp [hall])
      have hnot : ¬e <+: q := hfree e (mem_append_left _ he)
      have hqe : q <+: e := (List.prefix_or_prefix_of_prefix hqp hle).resolve_right hnot
      exact hnot (hinner p' hp' (hp'q.trans hqe) ▸ hp'q)
    · intro r hr
      rw [hhashNone r hr, getFrom_empty fun h => nil_not_mem_paths _ (h ▸ hr)]
  obtain ⟨k, rest, rfl⟩ : ∃ k rest, p = k :: rest :=
    exists_cons_of_ne_nil fun h => nil_not_mem_paths _ (h ▸ hp)
  refine ⟨_, _, hagree, _, _, _, _, rfl, rfl, ?_⟩
  rw [redactObject_empty hall, redactObject_eq "\x7b\x7d", hall, if_neg (by simp), if_neg (by simp)]
  refine marshalCanonical_ne_empty (k := k) ?_
  rw [lookup_edits_object]
  have hlookup : [(k, nest codec rest)].lookup k = some (nest codec rest) := by simp
  rw [hlookup]
  have hhead : [k] <+: e ∧ [k] ≠ e := by
    obtain ⟨j, tail, rfl⟩ : ∃ j tail, e = j :: tail :=
      exists_cons_of_ne_nil fun h => nil_not_mem_paths _ (h ▸ he)
    obtain ⟨rfl, -⟩ := cons_prefix_cons.mp hle
    refine ⟨⟨tail, rfl⟩, fun heq => ?_⟩
    rw [← heq] at hlen
    simp at hlen
  have htouched : Touched (tails k _) (tails k (paths spec.hashed))
      (some (nest codec rest)) :=
    ⟨rest, mem_append_left _ (mem_tails.mpr hp), by rw [getFrom_nest]; rfl⟩
  have hfold := foldl_edits_touched (f := hashValue codec salt)
    (fun h => hhead.2 (hinner [k] (mem_tails.mp h) hhead.1))
    (fun h => hhash [k] (mem_tails.mp h) ⟨rest, rfl⟩)
    (fun h => hhead.2 (hshorter [k] (mem_tails.mp h) hhead.1)) htouched
  rw [lookup_nil, hfold]
  rfl

/-- Payloads that differ only in what the spec keeps back are redacted to the same text just
when the spec is refused or clear. -/
theorem redact_noninterfering_iff (codec : Codec) (spec : AnalyticsSpec) (salt : String) :
    (∀ text top text' top', Agree codec spec salt (.object text top) (.object text' top') →
      redact codec spec salt (.object text top) = redact codec spec salt (.object text' top')) ↔
    (spec.hashed ≠ [] ∧ salt = "") ∨ Clear spec := by
  constructor
  · intro h
    refine or_iff_not_imp_left.mpr fun hsalt => by_contra fun hclear => ?_
    obtain ⟨_, _, hagree, text, top, text', top', rfl, rfl, hne⟩ := exists_trace codec salt hclear
    have heq := h text top text' top' hagree
    simp only [redact, if_neg hsalt, parseObject, Except.ok.injEq] at heq
    exact hne heq
  · rintro (hsalt | hclear) text top text' top' hagree
    · simp only [redact, if_pos hsalt]
    · simp only [redact, parseObject, redact_eq_of_agree hclear hagree]

def plainCodec : Codec :=
  ⟨fun text => "\"" ++ text ++ "\"", fun text => toString text.length⟩

def profileSpec : AnalyticsSpec :=
  ⟨["name", "profile.ssn"], false, ["profile.ssn"], []⟩

def withProfile (profile : Raw) : Raw :=
  .object ("\x7b\"name\":\"Ada\",\"profile\":" ++ profile.text ++ "\x7d")
    [("name", .leaf "\"Ada\""), ("profile", profile)]

def fullProfile : Raw :=
  .object "\x7b\"ssn\":\"1\"\x7d" [("ssn", .leaf "\"1\"")]

def emptyProfile : Raw :=
  .object "\x7b\x7d" []

/-- The excluded number shows in whether there is a profile. -/
theorem excluded_shows :
    Agree plainCodec profileSpec "" (withProfile fullProfile) (withProfile emptyProfile) ∧
      redact plainCodec profileSpec "" (withProfile fullProfile) =
        .ok "\x7b\"name\":\"Ada\",\"profile\":\x7b\x7d\x7d" ∧
      redact plainCodec profileSpec "" (withProfile emptyProfile) =
        .ok "\x7b\"name\":\"Ada\"\x7d" := by
  refine ⟨⟨?_, ?_⟩, ?_⟩
  · rintro q hq ⟨hincluded, hfree⟩
    obtain ⟨p, hp, hle⟩ := hincluded.resolve_left (by decide)
    have hpaths : paths profileSpec.included = [["name"], ["profile", "ssn"]] := by
      decide +kernel
    have hexcluded : paths profileSpec.excluded = [["profile", "ssn"]] := by
      decide +kernel
    rw [hpaths] at hp
    simp only [mem_cons, not_mem_nil, or_false] at hp
    rcases hp with rfl | rfl
    · obtain ⟨rest, rfl⟩ := hle
      refine .inl ?_
      rw [singleton_append, getFrom_cons, getFrom_cons]
      rfl
    · exact absurd hle (hfree _ (by simp [hexcluded]))
  · intro r hr
    cases hr
  · decide +kernel

end Fabriq.Analytics.RedactVisible
