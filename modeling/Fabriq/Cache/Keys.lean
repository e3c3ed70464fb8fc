import Fabriq.Core.Tenant
import Fabriq.Lib.Separated

namespace Fabriq.Cache

open Core.Tenant Lib.Separated List

inductive Partition where
  | global
  | tenant
  | tenantScope
  deriving DecidableEq, Repr

/-- A keyspace; its policy only sets the expiry of the entries. -/
structure Keyspace where
  name : String
  version : Nat
  partition : Partition
  entity : String
  deriving DecidableEq, Repr

structure Ctx where
  tenant : TenantId
  scope : Option TenantId

def Ctx.scopeOrEmpty (c : Ctx) : String :=
  match c.scope with
  | some scope => scope.id
  | none => ""

def Partition.resolve (c : Ctx) : Partition → String
  | .global => "g"
  | .tenant => "t:" ++ c.tenant.id
  | .tenantScope => "t:" ++ c.tenant.id ++ ":s:" ++ c.scopeOrEmpty

/-- `entityPartitions`: the partitions that a write bumps. -/
def entityPartitions (c : Ctx) : List String :=
  ["g", "t:" ++ c.tenant.id, "t:" ++ c.tenant.id ++ ":s:" ++ c.scopeOrEmpty]

def genKey (ks : Keyspace) (part : String) : String :=
  if ks.entity ≠ "" then "fabriq:c:gen:e:" ++ ks.entity ++ ":" ++ part
  else "fabriq:c:gen:k:" ++ ks.name ++ ":" ++ part

def valueStem (ks : Keyspace) (gen : Nat) : String :=
  ks.name ++ ":v" ++ toString ks.version ++ ":g" ++ toString gen

def fullKey (ks : Keyspace) (part : String) (gen : Nat) (key : String) : String :=
  "fabriq:c:" ++ valueStem ks gen ++ ":" ++ part ++ ":" ++ key

def genSource (ks : Keyspace) : String :=
  if ks.entity ≠ "" then ks.entity else ks.name

def localGenKey (src part : String) : String :=
  src ++ "|" ++ part

def l1key (ks : Keyspace) (part : String) (gen : Nat) (key : String) : String :=
  ks.name ++ "|v" ++ toString ks.version ++ "|g" ++ toString gen ++ "|" ++ part ++ "|" ++ key

def Partition.Apart (c c' : Ctx) : Partition → Prop
  | .global => False
  | .tenant => c.tenant.id ≠ c'.tenant.id
  | .tenantScope => c.tenant.id ≠ c'.tenant.id ∨ c.scopeOrEmpty ≠ c'.scopeOrEmpty

theorem Partition.Apart.symm {c c' : Ctx} {p : Partition} (h : p.Apart c c') : p.Apart c' c := by
  cases p with
  | global => exact h
  | tenant => exact Ne.symm h
  | tenantScope => exact h.imp Ne.symm Ne.symm

theorem colon_notMem_tenant (c : Ctx) : ':' ∉ c.tenant.id.toList :=
  notMem_of_valid c.tenant.wellFormed (by decide)

theorem bar_notMem_tenant (c : Ctx) : '|' ∉ c.tenant.id.toList :=
  notMem_of_valid c.tenant.wellFormed (by decide)

theorem notMem_scope {x : Char} (c : Ctx) (hx : idChar x = false) : x ∉ c.scopeOrEmpty.toList := by
  rw [Ctx.scopeOrEmpty]
  split
  · next scope _ => exact notMem_of_valid scope.wellFormed hx
  · exact not_mem_nil

theorem notMem_toString {x : Char} {n : Nat} (hx : x.isDigit = false) :
    x ∉ (toString n).toList := by
  intro hmem
  rw [isDigit_of_mem_toString hmem] at hx
  exact Bool.noConfusion hx

theorem colon_toList : ":".toList = [':'] := rfl

theorem bar_toList : "|".toList = ['|'] := rfl

variable {c c' : Ctx} {p : Partition} {k k' w u : String}

theorem resolve_tenant (c : Ctx) : Partition.tenant.resolve c = "t" ++ ":" ++ c.tenant.id := by
  rw [Partition.resolve, show "t:" = "t" ++ ":" from rfl]

theorem resolve_tenantScope (c : Ctx) : Partition.tenantScope.resolve c =
      "t" ++ ":" ++ (c.tenant.id ++ ":" ++ ("s" ++ ":" ++ c.scopeOrEmpty)) := by
  rw [Partition.resolve, show "t:" = "t" ++ ":" from rfl, show ":s:" = ":" ++ "s" ++ ":" from rfl]
  simp only [String.append_assoc]

theorem resolve_append_colon_ne (happart : p.Apart c c') :
    p.resolve c ++ ":" ++ k ≠ p.resolve c' ++ ":" ++ k' := by
  intro h
  cases p with
  | global => exact happart
  | tenant =>
    rw [resolve_tenant, resolve_tenant] at h
    simp only [String.append_assoc, String.append_right_inj] at h
    simp only [← String.append_assoc] at h
    exact happart (append_sep_inj_left colon_toList (colon_notMem_tenant c)
      (colon_notMem_tenant c') h).1
  | tenantScope =>
    rw [resolve_tenantScope, resolve_tenantScope] at h
    have hrest : c.tenant.id ++ ":" ++ ("s" ++ ":" ++ (c.scopeOrEmpty ++ ":" ++ k)) =
        c'.tenant.id ++ ":" ++ ("s" ++ ":" ++ (c'.scopeOrEmpty ++ ":" ++ k')) := by
      simpa only [String.append_assoc, String.append_right_inj] using h
    obtain ⟨htenant, hscope⟩ := append_sep_inj_left colon_toList (colon_notMem_tenant c)
      (colon_notMem_tenant c') hrest
    have hscopes := append_sep_inj_left colon_toList (notMem_scope c (by decide))
      (notMem_scope c' (by decide)) ((String.append_right_inj _).mp hscope)
    exact happart.elim (fun hne => hne htenant) fun hne => hne hscopes.1

theorem resolve_ne (happart : p.Apart c c') : p.resolve c ≠ p.resolve c' := by
  intro h
  have hkeys : p.resolve c ++ ":" ++ "" ≠ p.resolve c' ++ ":" ++ "" :=
    resolve_append_colon_ne happart
  exact hkeys (by rw [h])

theorem bar_notMem_resolve (c : Ctx) (p : Partition) : '|' ∉ (p.resolve c).toList := by
  have hscope : '|' ∉ c.scopeOrEmpty.toList := notMem_scope c (by decide)
  cases p with
  | global => exact (by decide : '|' ∉ "g".toList)
  | tenant =>
    simp only [Partition.resolve, String.toList_append, mem_append, not_or]
    exact ⟨by decide, bar_notMem_tenant c⟩
  | tenantScope =>
    simp only [Partition.resolve, String.toList_append, mem_append, not_or]
    exact ⟨⟨⟨by decide, bar_notMem_tenant c⟩, by decide⟩, hscope⟩

variable {ks : Keyspace} {g g' : Nat}

theorem fullKey_eq (ks : Keyspace) (part : String) (g : Nat) (k : String) :
    fullKey ks part g k = "fabriq:c:" ++ (valueStem ks g ++ ":" ++ (part ++ ":" ++ k)) := by
  simp only [fullKey, String.append_assoc]

section

variable (happart : ks.partition.Apart c c')
include happart

theorem fullKey_ne :
    fullKey ks (ks.partition.resolve c) g k ≠ fullKey ks (ks.partition.resolve c') g' k' := by
  intro h
  have hrest : toString g ++ ":" ++ (ks.partition.resolve c ++ ":" ++ k) =
      toString g' ++ ":" ++ (ks.partition.resolve c' ++ ":" ++ k') := by
    simpa only [fullKey, valueStem, String.append_assoc, String.append_right_inj] using h
  exact resolve_append_colon_ne happart (append_sep_inj_left colon_toList
    (notMem_toString (by decide)) (notMem_toString (by decide)) hrest).2

theorem genKey_ne : genKey ks (ks.partition.resolve c) ≠ genKey ks (ks.partition.resolve c') := by
  intro h
  rw [genKey, genKey] at h
  split at h
  · exact resolve_ne happart ((String.append_right_inj _).mp h)
  · exact resolve_ne happart ((String.append_right_inj _).mp h)

theorem l1key_ne :
    l1key ks (ks.partition.resolve c) g k ≠ l1key ks (ks.partition.resolve c') g' k' := by
  intro h
  have hrest : toString g ++ "|" ++ (ks.partition.resolve c ++ "|" ++ k) =
      toString g' ++ "|" ++ (ks.partition.resolve c' ++ "|" ++ k') := by
    simpa only [l1key, String.append_assoc, String.append_right_inj] using h
  have hparts := (append_sep_inj_left bar_toList (notMem_toString (by decide))
    (notMem_toString (by decide)) hrest).2
  exact resolve_ne happart (append_sep_inj_left bar_toList (bar_notMem_resolve c _)
    (bar_notMem_resolve c' _) hparts).1

end

/-- The texts in whose place a partition may begin: up to a colon inside of it, if another
partition can go on from there, or the whole partition. -/
def Partition.Opens (w : String) : Partition → Prop
  | .global => False
  | .tenant => w = "t" ∨ ∃ t : TenantId, w = "t:" ++ t.id ∨ ∃ y, w = "t:" ++ t.id ++ ":" ++ y
  | .tenantScope => w = "t" ∨ (∃ t : TenantId, w = "t:" ++ t.id ++ ":s") ∨
      ∃ c : Ctx, w = "t:" ++ c.tenant.id ++ ":s:" ++ c.scopeOrEmpty ∨
        ∃ y, w = "t:" ++ c.tenant.id ++ ":s:" ++ c.scopeOrEmpty ++ ":" ++ y

/-- The generation keys of the entity begin as its value keys do. -/
def Keyspace.Shadowed (ks : Keyspace) : Prop :=
  ks.entity ≠ "" ∧ ∃ (g : Nat) (w : String), ks.partition.Opens w ∧
    "gen:e:" ++ ks.entity =
      ks.name ++ ":v" ++ toString ks.version ++ ":g" ++ toString g ++ ":" ++ w

variable {l m q : String}

theorem mem_entityPartitions_iff : q ∈ entityPartitions c ↔
      q = "g" ∨ q = Partition.tenant.resolve c ∨ q = Partition.tenantScope.resolve c := by
  simp [entityPartitions, Partition.resolve]

theorem resolve_mem_entityPartitions (c : Ctx) (p : Partition) :
    p.resolve c ∈ entityPartitions c := by
  rw [mem_entityPartitions_iff]
  cases p with
  | global => exact .inl rfl
  | tenant => exact .inr (.inl rfl)
  | tenantScope => exact .inr (.inr rfl)

theorem count_colon_tenant (c : Ctx) : (Partition.tenant.resolve c).toList.count ':' = 1 := by
  rw [resolve_tenant, count_append_sep colon_toList,
    count_eq_zero_of_not_mem (colon_notMem_tenant c)]
  rfl

theorem count_colon_tenantScope (c : Ctx) :
    (Partition.tenantScope.resolve c).toList.count ':' = 3 := by
  have hscope : ':' ∉ c.scopeOrEmpty.toList := notMem_scope c (by decide)
  rw [resolve_tenantScope, count_append_sep colon_toList, count_append_sep colon_toList,
    count_append_sep colon_toList, count_eq_zero_of_not_mem (colon_notMem_tenant c),
    count_eq_zero_of_not_mem hscope]
  rfl

theorem entityPartition_ne (happart : p.Apart c c') (hq : q ∈ entityPartitions c) :
    p.resolve c' ≠ q := by
  intro h
  have hcount := congrArg (fun text => text.toList.count ':') h
  cases p with
  | global => exact happart
  | tenant =>
    rcases mem_entityPartitions_iff.mp hq with rfl | rfl | rfl
    · exact absurd ((count_colon_tenant c').symm.trans hcount) (by decide)
    · exact resolve_ne happart h.symm
    · exact absurd ((count_colon_tenant c').symm.trans
        (hcount.trans (count_colon_tenantScope c))) (by decide)
  | tenantScope =>
    rcases mem_entityPartitions_iff.mp hq with rfl | rfl | rfl
    · exact absurd ((count_colon_tenantScope c').symm.trans hcount) (by decide)
    · exact absurd ((count_colon_tenantScope c').symm.trans
        (hcount.trans (count_colon_tenant c))) (by decide)
    · exact resolve_ne happart h.symm

theorem le_count_valueStem (ks : Keyspace) (g : Nat) :
    ks.name.toList.count ':' + 2 ≤ (valueStem ks g).toList.count ':' := by
  have hstem : valueStem ks g =
      (ks.name ++ ":" ++ ("v" ++ toString ks.version)) ++ ":" ++ ("g" ++ toString g) := by
    rw [valueStem, show ":v" = ":" ++ "v" from rfl, show ":g" = ":" ++ "g" from rfl]
    simp only [String.append_assoc]
  rw [hstem, count_append_sep colon_toList, count_append_sep colon_toList]
  omega

theorem valueStem_ne_append_t (ks : Keyspace) (g : Nat) (x : String) :
    valueStem ks g ≠ x ++ ":" ++ "t" := by
  intro h
  have hsplit : (ks.name ++ ":v" ++ toString ks.version) ++ ":" ++ ("g" ++ toString g) =
      x ++ ":" ++ "t" := by
    rw [← h, valueStem, show ":g" = ":" ++ "g" from rfl]
    simp only [String.append_assoc]
  have hdigits : ':' ∉ ("g" ++ toString g).toList := by
    rw [String.toList_append, mem_append, not_or]
    exact ⟨by decide, notMem_toString (by decide)⟩
  have hlast := (append_sep_inj_right colon_toList hdigits (by decide) hsplit).2
  have hlist := congrArg String.toList hlast
  rw [String.toList_append] at hlist
  exact absurd (cons.inj hlist).1 (by decide)

theorem opens_tenant (hq : q ∈ entityPartitions c) (hne : c.tenant.id ≠ c'.tenant.id)
    (hm : ∀ x, m ≠ x ++ ":" ++ "t")
    (h : l ++ ":" ++ q = m ++ ":" ++ (Partition.tenant.resolve c' ++ ":" ++ k)) :
    ∃ w, Partition.tenant.Opens w ∧ l = m ++ ":" ++ w := by
  have hcount : 2 ≤ (Partition.tenant.resolve c' ++ ":" ++ k).toList.count ':' := by
    rw [count_append_sep colon_toList, count_colon_tenant]
    omega
  have hpart : Partition.tenant.resolve c' ++ ":" ++ k =
      "t" ++ ":" ++ (c'.tenant.id ++ ":" ++ k) := by
    rw [resolve_tenant]
    simp only [String.append_assoc]
  rcases (append_sep_iff colon_toList).mp h with ⟨-, hq'⟩ | ⟨w, hl, hw⟩ | ⟨w, hm', hw⟩
  · exfalso
    rcases mem_entityPartitions_iff.mp hq with rfl | rfl | rfl
    · rw [← hq'] at hcount
      exact absurd hcount (by decide)
    · rw [← hq', count_colon_tenant] at hcount
      omega
    · rw [resolve_tenantScope, hpart] at hq'
      have hrest : c.tenant.id ++ ":" ++ ("s" ++ ":" ++ c.scopeOrEmpty) =
          c'.tenant.id ++ ":" ++ k := (String.append_right_inj _).mp hq'
      exact hne (append_sep_inj_left colon_toList (colon_notMem_tenant c)
        (colon_notMem_tenant c') hrest).1
  · refine ⟨w, ?_, hl⟩
    rw [hpart] at hw
    rcases split_of_notMem colon_toList (by decide) hw with ⟨rfl, -⟩ | ⟨x, rfl, hx⟩
    · exact .inl rfl
    · refine .inr ⟨c'.tenant, ?_⟩
      rcases split_of_notMem colon_toList (colon_notMem_tenant c') hx with ⟨rfl, -⟩ | ⟨y, rfl, -⟩
      · exact .inl rfl
      · exact .inr ⟨y, by rw [show "t:" = "t" ++ ":" from rfl]; simp only [String.append_assoc]⟩
  · exfalso
    have hlonger : q.toList.count ':' =
        w.toList.count ':' + (Partition.tenant.resolve c' ++ ":" ++ k).toList.count ':' + 1 := by
      rw [hw, count_append_sep colon_toList]
    rcases mem_entityPartitions_iff.mp hq with rfl | rfl | rfl
    · rw [show "g".toList.count ':' = 0 from rfl] at hlonger
      omega
    · rw [count_colon_tenant] at hlonger
      omega
    · -- three colons leave none for `w`, so the stem would end in the `t` of the partition
      rw [count_colon_tenantScope] at hlonger
      rw [resolve_tenantScope] at hw
      rcases split_of_notMem colon_toList (by decide) hw with ⟨rfl, -⟩ | ⟨x, rfl, -⟩
      · exact hm l hm'
      · rw [count_append_sep colon_toList] at hlonger
        omega

theorem head_entityPartition_ne (hq : q ∈ entityPartitions c) : q.toList.head? ≠ some 's' := by
  rcases mem_entityPartitions_iff.mp hq with rfl | rfl | rfl
  · decide
  · rw [resolve_tenant, String.toList_append, String.toList_append]
    exact fun h => absurd (Option.some.inj h) (by decide)
  · rw [resolve_tenantScope, String.toList_append, String.toList_append]
    exact fun h => absurd (Option.some.inj h) (by decide)

theorem opens_tenantScope (hq : q ∈ entityPartitions c)
    (h : l ++ ":" ++ q = m ++ ":" ++ (Partition.tenantScope.resolve c' ++ ":" ++ k)) :
    ∃ w, Partition.tenantScope.Opens w ∧ l = m ++ ":" ++ w := by
  have hcount : 4 ≤ (Partition.tenantScope.resolve c' ++ ":" ++ k).toList.count ':' := by
    rw [count_append_sep colon_toList, count_colon_tenantScope]
    omega
  have hq3 : q.toList.count ':' ≤ 3 := by
    rcases mem_entityPartitions_iff.mp hq with rfl | rfl | rfl
    · decide
    · rw [count_colon_tenant]
      omega
    · exact Nat.le_of_eq (count_colon_tenantScope c)
  have hpart : Partition.tenantScope.resolve c' ++ ":" ++ k = "t" ++ ":" ++
      (c'.tenant.id ++ ":" ++ ("s" ++ ":" ++ (c'.scopeOrEmpty ++ ":" ++ k))) := by
    rw [resolve_tenantScope]
    simp only [String.append_assoc]
  rcases (append_sep_iff colon_toList).mp h with ⟨-, hq'⟩ | ⟨w, hl, hw⟩ | ⟨w, -, hw⟩
  · rw [← hq'] at hcount
    omega
  · refine ⟨w, ?_, hl⟩
    rw [hpart] at hw
    have hscope : ':' ∉ c'.scopeOrEmpty.toList := notMem_scope c' (by decide)
    have hliteral : "t:" = "t" ++ ":" ∧ ":s:" = ":" ++ "s" ++ ":" ∧ ":s" = ":" ++ "s" :=
      ⟨rfl, rfl, rfl⟩
    -- the colon behind `w` is the first, the third or a later one; the second is ruled out
    rcases split_of_notMem colon_toList (by decide) hw with ⟨rfl, -⟩ | ⟨x, rfl, hx⟩
    · exact .inl rfl
    rcases split_of_notMem colon_toList (colon_notMem_tenant c') hx with ⟨rfl, hs⟩ | ⟨y, rfl, hy⟩
    · exact absurd (congrArg (fun text => text.toList.head?) hs) (by
        rw [String.toList_append, String.toList_append]
        exact head_entityPartition_ne hq)
    rcases split_of_notMem colon_toList (by decide) hy with ⟨rfl, -⟩ | ⟨z, rfl, hz⟩
    · refine .inr (.inl ⟨c'.tenant, ?_⟩)
      rw [hliteral.1, hliteral.2.2]
      simp only [String.append_assoc]
    refine .inr (.inr ⟨c', ?_⟩)
    rw [hliteral.1, hliteral.2.1]
    rcases split_of_notMem colon_toList hscope hz with ⟨rfl, -⟩ | ⟨y, rfl, -⟩
    · exact .inl (by simp only [String.append_assoc])
    · exact .inr ⟨y, by simp only [String.append_assoc]⟩
  · rw [hw, count_append_sep colon_toList] at hq3
    omega

theorem entityGen_ne_fullKey (hshadow : ¬ ks.Shadowed) (hentity : ks.entity ≠ "")
    (happart : ks.partition.Apart c c') (hq : q ∈ entityPartitions c) :
    "fabriq:c:gen:e:" ++ ks.entity ++ ":" ++ q ≠ fullKey ks (ks.partition.resolve c') g k := by
  intro h
  have hkeys : ("gen:e:" ++ ks.entity) ++ ":" ++ q =
      valueStem ks g ++ ":" ++ (ks.partition.resolve c' ++ ":" ++ k) := by
    rw [fullKey_eq, show "fabriq:c:gen:e:" = "fabriq:c:" ++ "gen:e:" from rfl] at h
    simpa only [String.append_assoc, String.append_right_inj] using h
  have hopens : ∃ w, ks.partition.Opens w ∧ "gen:e:" ++ ks.entity = valueStem ks g ++ ":" ++ w := by
    cases hp : ks.partition with
    | global =>
      rw [hp] at happart
      exact happart.elim
    | tenant =>
      rw [hp] at happart hkeys
      exact opens_tenant hq happart (valueStem_ne_append_t ks g) hkeys
    | tenantScope =>
      rw [hp] at hkeys
      exact opens_tenantScope hq hkeys
  obtain ⟨w, hopen, hstem⟩ := hopens
  exact hshadow ⟨hentity, g, w, hopen, hstem⟩

theorem nameGen_ne_fullKey (happart : ks.partition.Apart c c') :
    "fabriq:c:gen:k:" ++ ks.name ++ ":" ++ ks.partition.resolve c ≠
      fullKey ks (ks.partition.resolve c') g k := by
  intro h
  have hcolons : (ks.partition.resolve c).toList.count ':' =
      (ks.partition.resolve c').toList.count ':' := by
    cases hp : ks.partition with
    | global =>
      rw [hp] at happart
      exact happart.elim
    | tenant => rw [count_colon_tenant, count_colon_tenant]
    | tenantScope => rw [count_colon_tenantScope, count_colon_tenantScope]
  have hkeys : ("gen:k:" ++ ks.name) ++ ":" ++ ks.partition.resolve c =
      valueStem ks g ++ ":" ++ (ks.partition.resolve c' ++ ":" ++ k) := by
    rw [fullKey_eq, show "fabriq:c:gen:k:" = "fabriq:c:" ++ "gen:k:" from rfl] at h
    simpa only [String.append_assoc, String.append_right_inj] using h
  have hcount := congrArg (fun text => text.toList.count ':') hkeys
  have hstem := le_count_valueStem ks g
  have hname : ("gen:k:" ++ ks.name).toList.count ':' = 2 + ks.name.toList.count ':' := by
    rw [String.toList_append, count_append]
    rfl
  simp only [count_append_sep colon_toList, hname, hcolons] at hcount
  omega

theorem genKey_ne_fullKey (hshadow : ¬ ks.Shadowed) (happart : ks.partition.Apart c c') :
    genKey ks (ks.partition.resolve c) ≠ fullKey ks (ks.partition.resolve c') g k := by
  rw [genKey]
  split
  · next hentity =>
      exact entityGen_ne_fullKey hshadow hentity happart (resolve_mem_entityPartitions c _)
  · exact nameGen_ne_fullKey happart

def otherTenant (t : TenantId) : TenantId :=
  if t.id = "a" then ⟨"b", by decide⟩ else ⟨"a", by decide⟩

theorem otherTenant_ne (t : TenantId) : (otherTenant t).id ≠ t.id := by
  rw [otherTenant]
  split
  · next h =>
      rw [h]
      decide
  · next h => exact fun heq => h heq.symm

theorem exists_partition_of_opens (h : p.Opens w) : ∃ (c c' : Ctx) (k : String), p.Apart c c' ∧
      w ++ ":" ++ p.resolve c = p.resolve c' ++ ":" ++ k := by
  cases p with
  | global => exact h.elim
  | tenant =>
    rcases h with rfl | ⟨t, rfl | ⟨y, rfl⟩⟩
    · refine ⟨⟨⟨"u", by decide⟩, none⟩, ⟨⟨"t", by decide⟩, none⟩, "u", ?_, by decide +kernel⟩
      exact (by decide : "u" ≠ "t")
    · exact ⟨⟨otherTenant t, none⟩, ⟨t, none⟩, _, otherTenant_ne t, rfl⟩
    · refine ⟨⟨otherTenant t, none⟩, ⟨t, none⟩,
        y ++ ":" ++ Partition.tenant.resolve ⟨otherTenant t, none⟩, otherTenant_ne t, ?_⟩
      simp only [Partition.resolve, String.append_assoc]
  | tenantScope =>
    rcases h with rfl | ⟨t, rfl⟩ | ⟨c, rfl | ⟨y, rfl⟩⟩
    · refine ⟨⟨⟨"s", by decide⟩, none⟩, ⟨⟨"t", by decide⟩, some ⟨"s", by decide⟩⟩, "", ?_,
        by decide +kernel⟩
      exact .inl (by decide : "s" ≠ "t")
    · refine ⟨⟨otherTenant t, none⟩, ⟨t, some ⟨"t", by decide⟩⟩,
        (otherTenant t).id ++ ":s:", .inl (otherTenant_ne t), ?_⟩
      change "t:" ++ t.id ++ ":s" ++ ":" ++ ("t:" ++ (otherTenant t).id ++ ":s:" ++ "") =
        "t:" ++ t.id ++ ":s:" ++ "t" ++ ":" ++ ((otherTenant t).id ++ ":s:")
      rw [String.append_empty, show "t:" = "t" ++ ":" from rfl, show ":s:" = ":s" ++ ":" from rfl]
      simp only [String.append_assoc]
    · exact ⟨⟨otherTenant c.tenant, none⟩, c, _, .inl (otherTenant_ne _), rfl⟩
    · refine ⟨⟨otherTenant c.tenant, none⟩, c,
        y ++ ":" ++ Partition.tenantScope.resolve ⟨otherTenant c.tenant, none⟩,
        .inl (otherTenant_ne _), ?_⟩
      simp only [Partition.resolve, String.append_assoc]

theorem Keyspace.Shadowed.collision (h : ks.Shadowed) :
    ∃ (c c' : Ctx) (g : Nat) (k : String), ks.partition.Apart c c' ∧
      genKey ks (ks.partition.resolve c) = fullKey ks (ks.partition.resolve c') g k := by
  obtain ⟨hentity, g, w, hopens, hstem⟩ := h
  obtain ⟨c, c', k, happart, hparts⟩ := exists_partition_of_opens hopens
  refine ⟨c, c', g, k, happart, ?_⟩
  rw [genKey, if_pos hentity]
  calc "fabriq:c:gen:e:" ++ ks.entity ++ ":" ++ ks.partition.resolve c
      = "fabriq:c:" ++ ("gen:e:" ++ ks.entity) ++ ":" ++ ks.partition.resolve c := by
        rw [show "fabriq:c:gen:e:" = "fabriq:c:" ++ "gen:e:" from rfl]
        simp only [String.append_assoc]
    _ = "fabriq:c:" ++ (valueStem ks g ++ ":" ++ (w ++ ":" ++ ks.partition.resolve c)) := by
        rw [hstem, valueStem]
        simp only [String.append_assoc]
    _ = fullKey ks (ks.partition.resolve c') g k := by rw [hparts, fullKey_eq]

end Fabriq.Cache
