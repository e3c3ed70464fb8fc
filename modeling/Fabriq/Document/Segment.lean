import Mathlib.Algebra.Group.Nat.Defs
import Mathlib.Data.List.Induction

namespace Fabriq.Document.Segment

open List

structure SegEntry where
  seq : Int64
  data : List UInt8
deriving DecidableEq

/-- The low `k` bytes of a number, the highest first. -/
def putUint : Nat → Nat → List UInt8
  | 0, _ => []
  | k + 1, n => putUint k (n / 256) ++ [UInt8.ofNat n]

def uint (b : List UInt8) : Nat :=
  b.foldl (fun n x => n * 256 + x.toNat) 0

def frame (e : SegEntry) : List UInt8 :=
  putUint 8 e.seq.toUInt64.toNat ++ (putUint 4 e.data.length ++ e.data)

def encodeSegment (entries : List SegEntry) : List UInt8 :=
  entries.flatMap frame

def decodeSegment (b : List UInt8) : Except String (List SegEntry) :=
  if b = [] then .ok []
  else if b.length < 12 then
    .error ("fabriq: truncated segment header (" ++ toString b.length ++ " bytes left)")
  else
    let seq := (UInt64.ofNat (uint (b.take 8))).toInt64
    let n := uint ((b.drop 8).take 4)
    let body := b.drop 12
    if body.length < n then
      .error ("fabriq: truncated segment body (want " ++ toString n ++ ", have " ++
        toString body.length ++ ")")
    else (decodeSegment (body.drop n)).map (⟨seq, body.take n⟩ :: ·)
termination_by b.length
decreasing_by grind

/-- The length of the data fits in the four bytes of its field. -/
def Short (es : List SegEntry) : Prop :=
  ∀ e ∈ es, e.data.length < 2 ^ 32

variable {b rest : List UInt8} {e : SegEntry} {es : List SegEntry}

theorem length_putUint (k n : Nat) : (putUint k n).length = k := by
  induction k generalizing n with
  | zero => rfl
  | succ k ih => rw [putUint, length_append, ih, length_singleton]

theorem uint_concat (b : List UInt8) (x : UInt8) : uint (b ++ [x]) = uint b * 256 + x.toNat := by
  rw [uint, foldl_append]
  rfl

theorem uint_lt {k : Nat} (h : b.length = k) : uint b < 256 ^ k := by
  subst h
  induction b using List.reverseRecOn with
  | nil => decide
  | append_singleton b x ih =>
    have hx : x.toNat < 256 := x.toNat_lt
    rw [uint_concat, length_append, length_singleton, Nat.pow_succ]
    omega

theorem uint_putUint {k n : Nat} (h : n < 256 ^ k) : uint (putUint k n) = n := by
  induction k generalizing n with
  | zero => simpa [putUint, uint, eq_comm] using h
  | succ k ih =>
    have hdiv : n / 256 < 256 ^ k := Nat.div_lt_of_lt_mul (by rwa [Nat.pow_succ, Nat.mul_comm] at h)
    rw [putUint, uint_concat, ih hdiv, UInt8.toNat_ofNat']
    omega

theorem putUint_uint {k : Nat} (h : b.length = k) : putUint k (uint b) = b := by
  subst h
  induction b using List.reverseRecOn with
  | nil => rfl
  | append_singleton b x ih =>
    have hx : x.toNat < 256 := x.toNat_lt
    have hdiv : (uint b * 256 + x.toNat) / 256 = uint b := by omega
    have hlow : UInt8.ofNat (uint b * 256 + x.toNat) = x := by
      refine UInt8.toNat_inj.mp ?_
      rw [UInt8.toNat_ofNat']
      omega
    rw [uint_concat, length_append, length_singleton, putUint, hdiv, ih, hlow]

theorem decode_nil : decodeSegment [] = .ok [] := by
  rw [decodeSegment, if_pos rfl]

theorem decode_frame (h : e.data.length < 2 ^ 32) (rest : List UInt8) :
    decodeSegment (frame e ++ rest) = (decodeSegment rest).map (e :: ·) := by
  have hhead := length_putUint 8 e.seq.toUInt64.toNat
  have hfield := length_putUint 4 e.data.length
  have hseq := uint_putUint (k := 8) e.seq.toUInt64.toNat_lt
  have hdata := uint_putUint (k := 4) h
  rw [frame, append_assoc, append_assoc]
  generalize putUint 8 e.seq.toUInt64.toNat = head at *
  generalize putUint 4 e.data.length = field at *
  have hlong : 12 ≤ (head ++ (field ++ (e.data ++ rest))).length := by
    simp only [length_append]
    omega
  have hbody : (head ++ (field ++ (e.data ++ rest))).drop 12 = e.data ++ rest := by
    rw [← drop_drop (i := 4) (j := 8), drop_left' hhead, drop_left' hfield]
  rw [decodeSegment, if_neg (ne_nil_of_length_pos (by omega)), if_neg (by omega), hbody,
    take_left' hhead, drop_left' hhead, take_left' hfield, hseq, hdata]
  simp [show ¬ e.data.length + rest.length < e.data.length by omega]

theorem decode_append (h : Short es) (rest : List UInt8) :
    decodeSegment (encodeSegment es ++ rest) = (decodeSegment rest).map (es ++ ·) := by
  induction es with
  | nil => cases hrest : decodeSegment rest <;> simp [encodeSegment, hrest, Except.map]
  | cons e es ih =>
    rw [encodeSegment, flatMap_cons, append_assoc, decode_frame (h e mem_cons_self)]
    rw [show es.flatMap frame = encodeSegment es from rfl,
      ih fun e he => h e (mem_cons_of_mem _ he)]
    cases decodeSegment rest <;> rfl

theorem encode_of_decode (h : decodeSegment b = .ok es) : encodeSegment es = b ∧ Short es := by
  fun_induction decodeSegment b generalizing es with
  | case1 =>
    cases h
    exact ⟨rfl, forall_mem_nil _⟩
  | case2 | case3 => cases h
  | case4 b _ hlong seq n body hbody =>
    rename_i ih
    have hhead : (b.take 8).length = 8 := length_take_of_le (by omega)
    have hfield : ((b.drop 8).take 4).length = 4 := length_take_of_le (by rw [length_drop]; omega)
    have hdata : (body.take n).length = n := length_take_of_le (by omega)
    have hseq : seq.toUInt64.toNat = uint (b.take 8) := by
      simpa [seq] using uint_lt hhead
    cases hrest : decodeSegment (body.drop n) with
    | error msg => simp [hrest, Except.map] at h
    | ok more =>
      simp only [hrest, Except.map, Except.ok.injEq] at h
      obtain ⟨hmore, hshort⟩ := ih hrest
      rw [← h]
      refine ⟨?_, forall_mem_cons.mpr ⟨lt_of_eq_of_lt hdata (uint_lt hfield), hshort⟩⟩
      rw [encodeSegment, flatMap_cons, frame, hseq, putUint_uint hhead, hdata, putUint_uint hfield,
        show more.flatMap frame = body.drop n from hmore, append_assoc, append_assoc,
        take_append_drop, show body = (b.drop 8).drop 4 by rw [drop_drop], take_append_drop,
        take_append_drop]

/-- Decoding undoes encoding, nothing else decodes, and an encoding that is cut decodes only where
it is cut between two entries. -/
theorem segment_codec :
    (∀ es, Short es → decodeSegment (encodeSegment es) = .ok es) ∧
      (∀ b es, decodeSegment b = .ok es → encodeSegment es = b) ∧
      ∀ es b, Short es → b <+: encodeSegment es →
        (∀ front, front <+: es → b ≠ encodeSegment front) → ∃ msg, decodeSegment b = .error msg := by
  have hround : ∀ es, Short es → decodeSegment (encodeSegment es) = .ok es := by
    intro es hes
    have h := decode_append hes []
    rwa [append_nil, decode_nil, Except.map, append_nil] at h
  refine ⟨hround, fun b es h => (encode_of_decode h).1, fun es b hes hcut hfront => ?_⟩
  cases hb : decodeSegment b with
  | error msg => exact ⟨msg, rfl⟩
  | ok front =>
    obtain ⟨rfl, hshort⟩ := encode_of_decode hb
    obtain ⟨rest, hrest⟩ := hcut
    have hall := hround es hes
    rw [← hrest, decode_append hshort] at hall
    cases hmore : decodeSegment rest with
    | error msg => simp [hmore, Except.map] at hall
    | ok more =>
      simp only [hmore, Except.map, Except.ok.injEq] at hall
      exact absurd rfl (hfront front ⟨more, hall⟩)

theorem segment_codec_pair :
    decodeSegment (encodeSegment [⟨-1, [7, 8]⟩, ⟨5, []⟩]) = .ok [⟨-1, [7, 8]⟩, ⟨5, []⟩] :=
  segment_codec.1 _ (by unfold Short; decide)

end Fabriq.Document.Segment
