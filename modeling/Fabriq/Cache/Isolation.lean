import Fabriq.Cache.Keys
import Fabriq.Lib.Assoc

namespace Fabriq.Cache.Isolation

open Lib List Option Lib.Assoc

structure Store where
  redis : List (String × String)
  gens : List (String × Nat)
  l1 : List (String × String)

inductive Level where
  | adapter
  | l1
  deriving DecidableEq, Repr

/-- The operations on a keyspace; `loaded` is what the loader answers. -/
inductive Op where
  | get (key : String)
  | set (key val : String)
  | getOrLoad (key : String) (loaded : Option String)
  | invalidate (keys : List String)
  | invalidateKeyspace
  | invalidateEntity
  deriving DecidableEq, Repr

def parseGen (raw : String) : Option Nat :=
  if raw.toList ≠ [] ∧ raw.toList.all Char.isDigit then some (Nat.ofDigitChars 10 raw.toList 0)
  else none

section

variable (ks : Keyspace) (part : String) (s : Store)

/-- The generation that `resolve` reads; `none` where the text is no number. -/
def resolveGen : Option Nat :=
  match s.redis.lookup (genKey ks part) with
  | none => some 0
  | some raw => parseGen raw

/-- `Adapter.Get`; the outer `none` is an error. -/
def get (key : String) : Option (Option String) :=
  (resolveGen ks part s).map fun gen => s.redis.lookup (fullKey ks part gen key)

def set (key val : String) : Option Store :=
  (resolveGen ks part s).map fun gen =>
    { s with redis := put s.redis (fullKey ks part gen key) val }

/-- `Adapter.GetOrLoad` of a single caller: the second look finds what the first one did. -/
def getOrLoad (key : String) (loaded : Option String) : Option (String × Store) :=
  match get ks part s key with
  | none => none
  | some (some val) => some (val, s)
  | some none => loaded.bind fun val => (set ks part s key val).map fun s' => (val, s')

def invalidate (keys : List String) : Option Store :=
  (resolveGen ks part s).map fun gen =>
    { s with redis := keys.foldl (fun r key => drop r (fullKey ks part gen key)) s.redis }

def incr (key : String) : Option Store :=
  match s.redis.lookup key with
  | none => some { s with redis := put s.redis key "1" }
  | some raw =>
    (parseGen raw).map fun n => { s with redis := put s.redis key (toString (n + 1)) }

def invalidateKeyspace : Option Store :=
  incr s (genKey ks part)

/-- `Adapter.InvalidateEntity`: what it leaves, and whether every bump went through. -/
def invalidateEntity (entity : String) (s : Store) : List String → Store × Bool
  | [] => (s, true)
  | q :: rest =>
    match incr s ("fabriq:c:gen:e:" ++ entity ++ ":" ++ q) with
    | none => (s, false)
    | some s' => invalidateEntity entity s' rest

end

namespace L1

variable (ks : Keyspace) (part : String) (s : Store)

def localGen : Nat :=
  (s.gens.lookup (localGenKey (genSource ks) part)).getD 0

def lk (key : String) : String :=
  l1key ks part (localGen ks part s) key

def put (lk val : String) : Store :=
  { s with l1 := Assoc.put s.l1 lk val }

def bumpGen (src q : String) : Store :=
  { s with gens :=
      Assoc.put s.gens (localGenKey src q) ((s.gens.lookup (localGenKey src q)).getD 0 + 1) }

def get (key : String) : Option (Option String) × Store :=
  match s.l1.lookup (lk ks part s key) with
  | some val => (some (some val), s)
  | none =>
    match Isolation.get ks part s key with
    | some (some val) => (some (some val), put s (lk ks part s key) val)
    | answer => (answer, s)

def set (key val : String) : Option Store :=
  (Isolation.set ks part s key val).map fun s' => put s' (lk ks part s' key) val

def getOrLoad (key : String) (loaded : Option String) : Option (String × Store) :=
  match s.l1.lookup (lk ks part s key) with
  | some val => some (val, s)
  | none =>
    (Isolation.getOrLoad ks part s key loaded).map fun (val, s') =>
      (val, put s' (lk ks part s key) val)

def invalidate (keys : List String) : Option Store :=
  (Isolation.invalidate ks part s keys).map fun s' =>
    { s' with l1 := keys.foldl (fun r key => drop r (lk ks part s' key)) s'.l1 }

def invalidateKeyspace : Option Store :=
  (Isolation.invalidateKeyspace ks part s).map fun s' => bumpGen s' (genSource ks) part

def invalidateEntity (entity : String) (parts : List String) : Store :=
  match Isolation.invalidateEntity entity s parts with
  | (s', false) => s'
  | (s', true) => parts.foldl (fun r q => bumpGen r entity q) s'

end L1

/-- An operation under a context; one that fails leaves what it has written. -/
def exec (ks : Keyspace) (c : Ctx) (s : Store) : Level × Op → Store
  | (.adapter, .get _) => s
  | (.adapter, .set key val) => (set ks (ks.partition.resolve c) s key val).getD s
  | (.adapter, .getOrLoad key loaded) =>
    ((getOrLoad ks (ks.partition.resolve c) s key loaded).map Prod.snd).getD s
  | (.adapter, .invalidate keys) => (invalidate ks (ks.partition.resolve c) s keys).getD s
  | (.adapter, .invalidateKeyspace) => (invalidateKeyspace ks (ks.partition.resolve c) s).getD s
  | (.adapter, .invalidateEntity) =>
    if ks.entity = "" then s else (invalidateEntity ks.entity s (entityPartitions c)).1
  | (.l1, .get key) => (L1.get ks (ks.partition.resolve c) s key).2
  | (.l1, .set key val) => (L1.set ks (ks.partition.resolve c) s key val).getD s
  | (.l1, .getOrLoad key loaded) =>
    ((L1.getOrLoad ks (ks.partition.resolve c) s key loaded).map Prod.snd).getD s
  | (.l1, .invalidate keys) => (L1.invalidate ks (ks.partition.resolve c) s keys).getD s
  | (.l1, .invalidateKeyspace) => (L1.invalidateKeyspace ks (ks.partition.resolve c) s).getD s
  | (.l1, .invalidateEntity) =>
    if ks.entity = "" then s else L1.invalidateEntity s ks.entity (entityPartitions c)

section

variable (ks : Keyspace) (c : Ctx) (key : String)

def RedisKey : Prop :=
  key = genKey ks (ks.partition.resolve c) ∨
    ∃ g k, key = fullKey ks (ks.partition.resolve c) g k

def L1Key : Prop :=
  ∃ g k, key = l1key ks (ks.partition.resolve c) g k

/-- The Redis keys that operations under a context may write: its own, and the generations of the
entity in the partitions that a write bumps. -/
def RedisWrite : Prop :=
  RedisKey ks c key ∨
    ks.entity ≠ "" ∧ ∃ q ∈ entityPartitions c, key = "fabriq:c:gen:e:" ++ ks.entity ++ ":" ++ q

def GenWrite : Prop :=
  ∃ q ∈ entityPartitions c, key = localGenKey (genSource ks) q

end

/-- What the context reads, and the generations at which its entries are current. -/
structure Agrees (ks : Keyspace) (c : Ctx) (s s' : Store) : Prop where
  gen : resolveGen ks (ks.partition.resolve c) s' = resolveGen ks (ks.partition.resolve c) s
  localGen : L1.localGen ks (ks.partition.resolve c) s' = L1.localGen ks (ks.partition.resolve c) s
  read : ∀ key, get ks (ks.partition.resolve c) s' key = get ks (ks.partition.resolve c) s key
  readL1 : ∀ key, (L1.get ks (ks.partition.resolve c) s' key).1 =
    (L1.get ks (ks.partition.resolve c) s key).1

/-- The partitions of a keyspace are disjoint: no key is built under two contexts, and no
operation under one changes what the other reads. -/
structure PartitionsDisjoint (ks : Keyspace) : Prop where
  redis : ∀ c c', ks.partition.Apart c c' → ∀ key, RedisKey ks c key → ¬ RedisKey ks c' key
  l1 : ∀ c c', ks.partition.Apart c c' → ∀ key, L1Key ks c key → ¬ L1Key ks c' key
  reads : ∀ c c', ks.partition.Apart c c' → ∀ (ops : List (Level × Op)) (s : Store),
    Agrees ks c' s (ops.foldl (exec ks c) s)

structure Frame (ks : Keyspace) (c : Ctx) (s s' : Store) : Prop where
  redis : ∀ key, ¬ RedisWrite ks c key → s'.redis.lookup key = s.redis.lookup key
  gens : ∀ key, ¬ GenWrite ks c key → s'.gens.lookup key = s.gens.lookup key
  l1 : ∀ key, ¬ L1Key ks c key → s'.l1.lookup key = s.l1.lookup key

namespace Frame

variable {ks : Keyspace} {c : Ctx} {s s' s'' : Store}

theorem refl (s : Store) : Frame ks c s s := ⟨fun _ _ => rfl, fun _ _ => rfl, fun _ _ => rfl⟩

theorem trans (h : Frame ks c s s') (h' : Frame ks c s' s'') : Frame ks c s s'' where
  redis key hkey := (h'.redis key hkey).trans (h.redis key hkey)
  gens key hkey := (h'.gens key hkey).trans (h.gens key hkey)
  l1 key hkey := (h'.l1 key hkey).trans (h.l1 key hkey)

theorem getD {o : Option Store} (h : ∀ s', o = some s' → Frame ks c s s') :
    Frame ks c s (o.getD s) := by
  cases o with
  | none => exact refl s
  | some s' => exact h s' rfl

theorem foldl {ι : Type} {f : Store → ι → Store} {items : List ι}
    (h : ∀ i ∈ items, ∀ s, Frame ks c s (f s i)) (s : Store) : Frame ks c s (items.foldl f s) := by
  induction items generalizing s with
  | nil => exact refl s
  | cons i rest ih =>
    exact (h i mem_cons_self s).trans (ih (forall_mem_of_forall_mem_cons h) (f s i))

theorem redis_put {key val : String} (hkey : RedisWrite ks c key) :
    Frame ks c s { s with redis := put s.redis key val } where
  redis other hother := by
    rw [lookup_put, if_neg]
    rintro rfl
    exact hother hkey
  gens _ _ := rfl
  l1 _ _ := rfl

theorem redis_drops {f : String → String} (hkey : ∀ k, RedisWrite ks c (f k)) (keys : List String) :
    Frame ks c s { s with redis := keys.foldl (fun r k => drop r (f k)) s.redis } where
  redis other hother := by
    apply lookup_foldl_drop f
    rintro k - rfl
    exact hother (hkey k)
  gens _ _ := rfl
  l1 _ _ := rfl

theorem l1_put {key : String} (hkey : L1Key ks c key) (val : String) :
    Frame ks c s (L1.put s key val) where
  redis _ _ := rfl
  gens _ _ := rfl
  l1 other hother := by
    rw [L1.put, lookup_put, if_neg]
    rintro rfl
    exact hother hkey

theorem l1_drops {f : String → String} (hkey : ∀ k, L1Key ks c (f k)) (keys : List String) :
    Frame ks c s { s with l1 := keys.foldl (fun r k => drop r (f k)) s.l1 } where
  redis _ _ := rfl
  gens _ _ := rfl
  l1 other hother := by
    apply lookup_foldl_drop f
    rintro k - rfl
    exact hother (hkey k)

theorem bumpGen {q : String} (hq : q ∈ entityPartitions c) :
    Frame ks c s (L1.bumpGen s (genSource ks) q) where
  redis _ _ := rfl
  gens other hother := by
    rw [L1.bumpGen, lookup_put, if_neg]
    rintro rfl
    exact hother ⟨q, hq, rfl⟩
  l1 _ _ := rfl

theorem incr {key : String} (hkey : RedisWrite ks c key) (h : incr s key = some s') :
    Frame ks c s s' := by
  rw [Isolation.incr] at h
  split at h
  · cases h
    exact redis_put hkey
  · obtain ⟨n, -, rfl⟩ := map_eq_some_iff.mp h
    exact redis_put hkey

end Frame

variable {ks : Keyspace} {c : Ctx} {s s' : Store} {key val : String}

theorem redisWrite_fullKey (g : Nat) (k : String) :
    RedisWrite ks c (fullKey ks (ks.partition.resolve c) g k) :=
  .inl (.inr ⟨g, k, rfl⟩)

theorem set_frame (h : set ks (ks.partition.resolve c) s key val = some s') : Frame ks c s s' := by
  obtain ⟨g, -, rfl⟩ := map_eq_some_iff.mp h
  exact .redis_put (redisWrite_fullKey g key)

variable {keys : List String} {loaded : Option String}

theorem getOrLoad_frame (h : getOrLoad ks (ks.partition.resolve c) s key loaded = some (val, s')) :
    Frame ks c s s' := by
  rw [getOrLoad] at h
  split at h
  · cases h
  · cases h
    exact .refl s
  · obtain ⟨v, -, hset⟩ := bind_eq_some_iff.mp h
    obtain ⟨s₁, hs₁, hpair⟩ := map_eq_some_iff.mp hset
    cases hpair
    exact set_frame hs₁

theorem invalidate_frame
    (h : invalidate ks (ks.partition.resolve c) s keys = some s') : Frame ks c s s' := by
  obtain ⟨g, -, rfl⟩ := map_eq_some_iff.mp h
  exact .redis_drops (redisWrite_fullKey g) keys

theorem invalidateKeyspace_frame
    (h : invalidateKeyspace ks (ks.partition.resolve c) s = some s') : Frame ks c s s' :=
  .incr (.inl (.inl rfl)) h

theorem invalidateEntity_frame (hentity : ks.entity ≠ "") {parts : List String}
    (hparts : ∀ q ∈ parts, q ∈ entityPartitions c) (s : Store) :
    Frame ks c s (invalidateEntity ks.entity s parts).1 := by
  induction parts generalizing s with
  | nil => exact .refl s
  | cons q rest ih =>
    rw [invalidateEntity]
    split
    · exact .refl s
    · next s₁ hs₁ =>
        have hq : RedisWrite ks c ("fabriq:c:gen:e:" ++ ks.entity ++ ":" ++ q) :=
          .inr ⟨hentity, q, hparts q mem_cons_self, rfl⟩
        exact (Frame.incr hq hs₁).trans (ih (forall_mem_of_forall_mem_cons hparts) s₁)

theorem l1Key_lk (s : Store) (key : String) :
    L1Key ks c (L1.lk ks (ks.partition.resolve c) s key) :=
  ⟨_, key, rfl⟩

theorem l1_get_frame (s : Store) (key : String) :
    Frame ks c s (L1.get ks (ks.partition.resolve c) s key).2 := by
  rw [L1.get]
  split
  · exact .refl s
  · split
    · exact .l1_put (l1Key_lk s key) _
    · exact .refl s

theorem l1_set_frame (h : L1.set ks (ks.partition.resolve c) s key val = some s') :
    Frame ks c s s' := by
  obtain ⟨s₁, hs₁, rfl⟩ := map_eq_some_iff.mp h
  exact (set_frame hs₁).trans (.l1_put (l1Key_lk s₁ key) val)

theorem l1_getOrLoad_frame
    (h : L1.getOrLoad ks (ks.partition.resolve c) s key loaded = some (val, s')) :
    Frame ks c s s' := by
  rw [L1.getOrLoad] at h
  split at h
  · cases h
    exact .refl s
  · obtain ⟨⟨v, s₁⟩, hs₁, hpair⟩ := map_eq_some_iff.mp h
    cases hpair
    exact (getOrLoad_frame hs₁).trans (.l1_put (l1Key_lk s key) _)

theorem l1_invalidate_frame
    (h : L1.invalidate ks (ks.partition.resolve c) s keys = some s') : Frame ks c s s' := by
  obtain ⟨s₁, hs₁, rfl⟩ := map_eq_some_iff.mp h
  exact (invalidate_frame hs₁).trans (.l1_drops (l1Key_lk s₁) keys)

theorem l1_invalidateKeyspace_frame
    (h : L1.invalidateKeyspace ks (ks.partition.resolve c) s = some s') : Frame ks c s s' := by
  obtain ⟨s₁, hs₁, rfl⟩ := map_eq_some_iff.mp h
  exact (invalidateKeyspace_frame hs₁).trans (.bumpGen (resolve_mem_entityPartitions c _))

theorem l1_invalidateEntity_frame (hentity : ks.entity ≠ "") (s : Store) :
    Frame ks c s (L1.invalidateEntity s ks.entity (entityPartitions c)) := by
  have hinner : Frame ks c s (invalidateEntity ks.entity s (entityPartitions c)).1 :=
    invalidateEntity_frame hentity (fun _ => id) s
  have hsource : genSource ks = ks.entity := if_pos hentity
  rw [L1.invalidateEntity]
  split
  · next s₁ hs₁ =>
      rw [hs₁] at hinner
      exact hinner
  · next s₁ hs₁ =>
      rw [hs₁] at hinner
      refine hinner.trans (.foldl (fun q hq r => ?_) s₁)
      rw [← hsource]
      exact .bumpGen hq

theorem snd_frame {o : Option (String × Store)}
    (h : ∀ v s', o = some (v, s') → Frame ks c s s') : Frame ks c s ((o.map Prod.snd).getD s) := by
  apply Frame.getD
  intro s' hs'
  obtain ⟨⟨v, s₁⟩, ho, rfl⟩ := map_eq_some_iff.mp hs'
  exact h v s₁ ho

theorem exec_frame (s : Store) (op : Level × Op) : Frame ks c s (exec ks c s op) := by
  obtain ⟨level, op⟩ := op
  cases level with
  | adapter =>
    cases op with
    | get key => exact .refl s
    | set key val => exact .getD fun _ => set_frame
    | getOrLoad key loaded => exact snd_frame fun _ _ => getOrLoad_frame
    | invalidate keys => exact .getD fun _ => invalidate_frame
    | invalidateKeyspace => exact .getD fun _ => invalidateKeyspace_frame
    | invalidateEntity =>
      rw [exec]
      split
      · exact .refl s
      · next hentity => exact invalidateEntity_frame hentity (fun _ => id) s
  | l1 =>
    cases op with
    | get key => exact l1_get_frame s key
    | set key val => exact .getD fun _ => l1_set_frame
    | getOrLoad key loaded => exact snd_frame fun _ _ => l1_getOrLoad_frame
    | invalidate keys => exact .getD fun _ => l1_invalidate_frame
    | invalidateKeyspace => exact .getD fun _ => l1_invalidateKeyspace_frame
    | invalidateEntity =>
      rw [exec]
      split
      · exact .refl s
      · next hentity => exact l1_invalidateEntity_frame hentity s

variable {c' : Ctx}

theorem redisKey_disjoint (hshadow : ¬ ks.Shadowed) (happart : ks.partition.Apart c c')
    (h : RedisKey ks c key) : ¬ RedisKey ks c' key := by
  have hsymm : ks.partition.Apart c' c := happart.symm
  rcases h with rfl | ⟨g, k, rfl⟩
  · rintro (hgen | ⟨g', k', hval⟩)
    · exact genKey_ne happart hgen
    · exact genKey_ne_fullKey hshadow happart hval
  · rintro (hgen | ⟨g', k', hval⟩)
    · exact genKey_ne_fullKey hshadow hsymm hgen.symm
    · exact fullKey_ne happart hval

theorem l1Key_disjoint (happart : ks.partition.Apart c c') (h : L1Key ks c key) :
    ¬ L1Key ks c' key := by
  obtain ⟨g, k, rfl⟩ := h
  rintro ⟨g', k', hkeys⟩
  exact l1key_ne happart hkeys

theorem not_redisWrite (hshadow : ¬ ks.Shadowed) (happart : ks.partition.Apart c c')
    (h : RedisKey ks c' key) : ¬ RedisWrite ks c key := by
  rintro (hown | ⟨hentity, q, hq, rfl⟩)
  · exact redisKey_disjoint hshadow happart hown h
  · rcases h with hgen | ⟨g, k, hval⟩
    · rw [genKey, if_pos hentity, String.append_right_inj] at hgen
      exact entityPartition_ne happart hq hgen.symm
    · exact entityGen_ne_fullKey hshadow hentity happart hq hval

theorem not_genWrite (happart : ks.partition.Apart c c') :
    ¬ GenWrite ks c (localGenKey (genSource ks) (ks.partition.resolve c')) := by
  rintro ⟨q, hq, hkeys⟩
  rw [localGenKey, localGenKey, String.append_right_inj] at hkeys
  exact entityPartition_ne happart hq hkeys

theorem Frame.agrees (hframe : Frame ks c s s') (hshadow : ¬ ks.Shadowed)
    (happart : ks.partition.Apart c c') : Agrees ks c' s s' := by
  have hgen : resolveGen ks (ks.partition.resolve c') s' =
      resolveGen ks (ks.partition.resolve c') s := by
    rw [resolveGen, resolveGen, hframe.redis _ (not_redisWrite hshadow happart (.inl rfl))]
  have hread : ∀ key, get ks (ks.partition.resolve c') s' key =
      get ks (ks.partition.resolve c') s key := by
    intro key
    rw [get, get, hgen]
    congr 1
    funext g
    exact hframe.redis _ (not_redisWrite hshadow happart (.inr ⟨g, key, rfl⟩))
  have hlocal : L1.localGen ks (ks.partition.resolve c') s' =
      L1.localGen ks (ks.partition.resolve c') s := by
    rw [L1.localGen, L1.localGen, hframe.gens _ (not_genWrite happart)]
  refine ⟨hgen, hlocal, hread, fun key => ?_⟩
  have hlk : L1.lk ks (ks.partition.resolve c') s' key =
      L1.lk ks (ks.partition.resolve c') s key := by
    rw [L1.lk, L1.lk, hlocal]
  have hentry : s'.l1.lookup (L1.lk ks (ks.partition.resolve c') s key) =
      s.l1.lookup (L1.lk ks (ks.partition.resolve c') s key) :=
    hframe.l1 _ fun hkey => l1Key_disjoint happart hkey (l1Key_lk s key)
  rw [L1.get, L1.get, hlk, hentry, hread key]
  split
  · rfl
  · split <;> rfl

/-- The partitions are disjoint exactly if no generation key reads as a value key. -/
theorem partitionsDisjoint_iff_not_shadowed (ks : Keyspace) :
    PartitionsDisjoint ks ↔ ¬ ks.Shadowed := by
  constructor
  · intro disjoint hshadow
    obtain ⟨c, c', g, k, happart, hkeys⟩ := hshadow.collision
    exact disjoint.redis c c' happart _ (.inl rfl) (.inr ⟨g, k, hkeys⟩)
  · intro hshadow
    refine ⟨fun c c' happart key => redisKey_disjoint hshadow happart,
      fun c c' happart key => l1Key_disjoint happart, fun c c' happart ops s => ?_⟩
    exact (Frame.foldl (fun op _ s => exec_frame s op) s).agrees hshadow happart

def shadowed : Keyspace where
  name := "gen:e:a"
  version := 1
  partition := .tenant
  entity := "a:v1:g0:t:acme"

def acme : Ctx := ⟨⟨"acme", Core.Tenant.valid_acme⟩, none⟩

def umbrella : Ctx := ⟨⟨"umbrella", by decide⟩, none⟩

/-- The value of one tenant under the key `t:umbrella` is the generation of the other one. -/
theorem set_moves_other_generation : shadowed.partition.Apart acme umbrella ∧
    fullKey shadowed (shadowed.partition.resolve acme) 0 "t:umbrella" =
      genKey shadowed (shadowed.partition.resolve umbrella) ∧
    (let before := exec shadowed umbrella ⟨[], [], []⟩ (.adapter, .set "k" "v")
     let after := exec shadowed acme before (.adapter, .set "t:umbrella" "7")
     get shadowed (shadowed.partition.resolve umbrella) before "k" = some (some "v") ∧
       get shadowed (shadowed.partition.resolve umbrella) after "k" = some none) ∧
    ¬ PartitionsDisjoint shadowed := by
  have hkeys : fullKey shadowed (shadowed.partition.resolve acme) 0 "t:umbrella" =
      genKey shadowed (shadowed.partition.resolve umbrella) := by decide +kernel
  have happart : shadowed.partition.Apart acme umbrella := (by decide : "acme" ≠ "umbrella")
  refine ⟨happart, hkeys, ⟨by decide +kernel, by decide +kernel⟩, fun disjoint => ?_⟩
  exact disjoint.redis acme umbrella happart _ (.inr ⟨0, _, rfl⟩) (.inl hkeys)

end Fabriq.Cache.Isolation
