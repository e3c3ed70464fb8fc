import Fabriq.Live.Reconcile.Watch

namespace Fabriq.Live.Reconcile

open Lib Lib.KeyedLog Lib.Machine Live.CandidateIndex Live.Dispatcher List Option
open Live.MaintainedWindow Live.Order Live.Types
open Live.WindowPrefix (Admissible Exact InResult Table)

variable {kind : String → SortKind} {c : Watch} {s : State kind c} {ch : Change}
  {hch : Admissible kind c.q.sort ch} {t : Table kind c.q.sort} {a : String}

theorem sameAt_commit_of_ne (hch : Admissible kind c.q.sort ch) (hne : a ≠ ch.aggId) :
    SameAt (t.commit ch hch) t a := by
  intro x hx
  rw [t.mem_commit]
  have hxne : x.aggId ≠ ch.aggId := hx ▸ hne
  constructor
  · rintro (⟨-, rfl⟩ | hmem)
    · exact absurd rfl hxne
    · exact hmem.1
  · exact fun hmem => .inr ⟨hmem, hxne⟩

theorem SameAt.trans {t' t'' : Table kind c.q.sort} (h : SameAt t t' a)
    (h' : SameAt t' t'' a) : SameAt t t'' a :=
  fun x hx => (h x hx).trans (h' x hx)

theorem SameAt.symm {t' : Table kind c.q.sort} (h : SameAt t t' a) : SameAt t' t a :=
  fun x hx => (h x hx).symm

theorem mem_commit_self (hch : Admissible kind c.q.sort ch) {x : Row} (hx : x.aggId = ch.aggId) :
    x ∈ (t.commit ch hch).rows ↔ ch.deleted = false ∧ x = rowFromChange c.q.sort ch := by
  rw [t.mem_commit]
  simp [hx]

theorem top_le_commit (hch : Admissible kind c.q.sort ch)
    (htop : s.top ch.aggId < ch.version) (a : String) : s.top a ≤ (s.commit ch hch).top a := by
  simp only [State.commit]
  split_ifs with ha
  · exact ha ▸ htop.le
  · exact le_rfl

theorem Versioned.commit (h : Versioned s) (hch : Admissible kind c.q.sort ch)
    (htop : s.top ch.aggId < ch.version) : Versioned (s.commit ch hch) := by
  have hgrow := top_le_commit hch htop
  refine ⟨?_, ?_, ?_, ?_, ?_⟩
  · simpa [State.commit] using h.delivered_le.trans (Nat.le_succ _)
  · refine h.ordered.append fun last hlast => ?_
    obtain ⟨hmem, hkey⟩ := mem_history.mp (mem_of_latest hlast)
    exact lt_of_le_of_lt (hkey ▸ (h.logged last hmem).2) htop
  · intro next hnext
    rcases mem_append.mp hnext with hold | hnew
    · exact ⟨(h.logged next hold).1, (h.logged next hold).2.trans (hgrow _)⟩
    · obtain rfl := mem_singleton.mp hnew
      exact ⟨hch, by simp [State.commit]⟩
  · intro x hx
    have hmem : x ∈ (s.current.commit ch hch).rows := hx
    rcases s.current.mem_commit.mp hmem with ⟨-, rfl⟩ | ⟨hmem, -⟩
    · simp [State.commit, rowFromChange]
    · exact (h.rows x hmem).trans (hgrow _)
  · intro last hlast x hx
    simp only [State.commit] at hlast
    by_cases hself : last.aggId = ch.aggId
    · rw [hself, latest_append_self] at hlast
      cases hlast
      exact mem_commit_self hch hx
    · rw [latest_append_of_ne hself] at hlast
      exact (sameAt_commit_of_ne hch (hx ▸ hself) x rfl).trans (h.written last hlast x hx)

theorem awaits_commit {queue : List Change} {taken : Int → Prop}
    {current : Table kind c.q.sort} (htaken : ∀ n, a = ch.aggId → taken n → n < ch.version)
    (h : SameAt t current a ∨ Awaits queue a taken) :
    SameAt t (current.commit ch hch) a ∨ Awaits (queue ++ [ch]) a taken := by
  by_cases ha : a = ch.aggId
  · subst ha
    exact .inr ⟨ch, latest_append_self, fun n => htaken n rfl⟩
  · refine h.imp (fun hsame => hsame.trans (sameAt_commit_of_ne hch ha).symm) ?_
    rintro ⟨last, hlast, hnew⟩
    exact ⟨last, (latest_append_of_ne ha).trans hlast, hnew⟩

theorem Inv.commit (h : Inv s) (hch : Admissible kind c.q.sort ch)
    (htop : s.top ch.aggId < ch.version) : Inv (s.commit ch hch) := by
  have hgrow := top_le_commit hch htop
  refine ⟨h.indexed, h.anchored, h.versioned.commit hch htop, ?_, ?_⟩
  · intro position t hmem
    have hread := h.reads position t hmem
    refine ⟨?_, fun x hx => (hread.rows x hx).trans (hgrow _), fun a => ?_⟩
    · simpa [State.commit] using hread.position_le.trans (Nat.le_succ _)
    · simp only [State.commit]
      rw [drop_append_of_le_length hread.position_le]
      refine awaits_commit ?_ (hread.current a)
      rintro n rfl ⟨x, hx, hid, rfl⟩
      exact lt_of_le_of_lt (hid ▸ hread.rows x hx) htop
  · obtain ⟨v, w, hserves, hagrees⟩ := h.served
    refine ⟨v, w, ?_, fun a => ?_⟩
    · exact { hserves with marks := fun a n hn => (hserves.marks a n hn).trans (hgrow a) }
    · simp only [State.commit]
      rw [drop_append_of_le_length h.versioned.delivered_le]
      refine awaits_commit ?_ (hagrees a)
      rintro n rfl hn
      exact lt_of_le_of_lt (hserves.marks _ n hn) htop

theorem Inv.readOracle (h : Inv s) :
    Inv { s with reads := (s.log.length, s.current) :: s.reads } := by
  refine ⟨h.indexed, h.anchored, ?_, ?_, ?_⟩
  · exact ⟨h.versioned.delivered_le, h.versioned.ordered, h.versioned.logged,
      h.versioned.rows, h.versioned.written⟩
  · intro position t hmem
    rcases mem_cons.mp hmem with heq | hold
    · cases heq
      exact ⟨le_rfl, h.versioned.rows, fun a => .inl fun x _ => Iff.rfl⟩
    · have hread := h.reads position t hold
      exact ⟨hread.position_le, hread.rows, hread.current⟩
  · obtain ⟨v, w, hserves, hagrees⟩ := h.served
    exact ⟨v, w, { hserves with }, hagrees⟩

theorem mem_of_page {x : Row} (hx : x ∈ c.page t) : x ∈ t.rows := by
  unfold Watch.page at hx
  split_ifs at hx
  · exact (WindowPrefix.mem_result.mp hx).1
  · exact (WindowPrefix.mem_result.mp (mem_of_mem_take hx)).1

theorem result_unanchored (h : c.q.cursor = none) :
    t.result { c.q with cursor := none } c.pred = t.result c.q c.pred := by
  rw [← h]

theorem exact_page (h : c.q.cursor = none) : Exact t c.pred (newWindow c.q c.pred (c.page t)
    (decide ((c.page t).length < c.q.limit + c.engine.cushion)) c.engine.cushion) := by
  have hall : PrefixWindow.PrefixOf (compareCursors c.q.sort) Row.cursor (InResult t c.pred)
      (t.result c.q c.pred) true :=
    .of_sorted (t.sorted_filter _) fun x => WindowPrefix.mem_result
  refine ⟨rfl, rfl, ?_⟩
  simp only [newWindow, Watch.page, result_unanchored h]
  split_ifs with hzero
  · have htake := hall.take (t.result c.q c.pred).length
    simpa [hzero] using htake
  · by_cases hshort : ((t.result c.q c.pred).take (c.q.limit + c.engine.cushion)).length <
          c.q.limit + c.engine.cushion
    · have hwhole : (t.result c.q c.pred).length ≤ c.q.limit + c.engine.cushion := by
        rw [length_take] at hshort
        omega
      rw [decide_eq_true hshort, take_of_length_le hwhole]
      exact hall
    · rw [decide_eq_false hshort]
      exact hall.take _

theorem long_page : decide ((c.page t).length < c.q.limit + c.engine.cushion) ∨
    c.q.limit ≤ (c.page t).length := by
  by_cases hshort : (c.page t).length < c.q.limit + c.engine.cushion
  · exact .inl (decide_eq_true hshort)
  · exact .inr (by omega)

variable {i : Nat}

theorem Awaits.drop_le {log : List Change} {taken taken' : Int → Prop} {j : Nat} (hij : i ≤ j)
    (htaken : ∀ n, taken' n → taken n) (h : Awaits (log.drop j) a taken) :
    Awaits (log.drop i) a taken' := by
  obtain ⟨k, rfl⟩ := Nat.exists_eq_add_of_le hij
  obtain ⟨ch, hlast, hnew⟩ := h
  refine ⟨ch, ?_, fun n hn => hnew n (htaken n hn)⟩
  have hsplit : log.drop i = (log.drop i).take k ++ log.drop (i + k) := by
    rw [← drop_drop, take_append_drop]
  rw [hsplit]
  exact latest_append_of_some hlast

theorem seen_page {n : Int} (h : seedSeen (fun _ => none) (c.page t) a = some n) :
    ∃ x ∈ t.rows, x.aggId = a ∧ x.version = n := by
  obtain ⟨x, hx, hid, hversion⟩ := (seedSeen_eq_some h).resolve_left nofun
  exact ⟨x, mem_of_page hx, hid, hversion⟩

theorem Serves.told_of_drift {v : View} {w : Window} {position : Nat} (h : Serves s v w)
    (hread : ReadOk s position t) (hdrift : c.drifts s.partition (c.page t))
    (hnone : c.q.cursor = none) (hbefore : s.delivered ≤ position) : Told (s.compare i t) := by
  have hknown : (s.compare i t).known = t := by simp [State.compare, hdrift]
  have hpart : (s.compare i t).partition = s.partition.put c.key
      (reseed c.engine.cushion v (s.partition.column c.key) (c.page t)) := by
    simp [State.compare, Watch.repair, h.view, hdrift]
  refine ⟨(reseed c.engine.cushion v (s.partition.column c.key) (c.page t)).1,
    newWindow c.q c.pred (c.page t)
      (decide ((c.page t).length < c.q.limit + c.engine.cushion)) c.engine.cushion, ?_, ?_⟩
  · refine ⟨?_, ?_, h.maintained, h.ready, h.query, h.filter, rfl, ?_, long_page, ?_⟩
    · rw [hpart, view_put, if_pos rfl]
    · simp only [reseed, h.query, h.filter]
    · rw [hknown]
      exact exact_page hnone
    · intro a n hn
      obtain ⟨x, hx, rfl, rfl⟩ := seen_page hn
      exact hread.rows x hx
  · intro a
    rw [hknown]
    exact (hread.current a).imp_right (Awaits.drop_le hbefore fun n hn => seen_page hn)

theorem Inv.compare (h : Inv s) {position : Nat} (hread : s.reads[i]? = some (position, t))
    (hok : keepsUp s (.compare i)) : Inv (s.compare i t) := by
  obtain ⟨v, w, hserves, hagrees⟩ := h.served
  have hindex : (s.compare i t).partition.index = s.partition.index := by
    simp only [State.compare, Watch.repair, hserves.view]
    split_ifs <;> rfl
  refine ⟨hindex ▸ h.indexed, h.anchored, ?_, ?_, ?_⟩
  · exact ⟨h.versioned.delivered_le, h.versioned.ordered, h.versioned.logged,
      h.versioned.rows, h.versioned.written⟩
  · intro r u hold
    have hread := h.reads r u (mem_of_mem_eraseIdx hold)
    exact ⟨hread.position_le, hread.rows, hread.current⟩
  · cases hdrift : c.drifts s.partition (c.page t) with
    | false =>
      have hsame : s.compare i t = { s with reads := s.reads.eraseIdx i } := by
        simp [State.compare, Watch.repair, hserves.view, hdrift]
      rw [hsame]
      exact ⟨v, w, { hserves with }, hagrees⟩
    | true =>
      obtain ⟨hnone, hbefore⟩ : c.q.cursor = none ∧ s.delivered ≤ position := by
        simpa [keepsUp, hread, hdrift] using hok
      exact hserves.told_of_drift (h.reads position t (mem_of_getElem? hread)) hdrift hnone hbefore

variable {w : Window} {answer : Option (List Row)}

theorem n_edited : (edited w ch).n = w.n := apply_n _ ch

theorem long_maybeRefill {refill : Refiller} (hwants : w.wantsRefill)
    (hanswer : refill w.q w.refillAfter (w.cap - w.rows.length) ≠ none) :
    (w.maybeRefill refill).complete ∨
      (w.maybeRefill refill).n ≤ (w.maybeRefill refill).rows.length := by
  obtain ⟨more, hmore⟩ := ne_none_iff_exists'.mp hanswer
  simp only [Window.maybeRefill, hwants, if_true, hmore, length_append,
    Bool.or_eq_true, decide_eq_true_eq]
  by_cases hshort : more.length < w.cap - w.rows.length
  · exact .inl (.inr hshort)
  · refine Or.inr ?_
    have hcap : w.cap = w.n + w.cushion := rfl
    omega

theorem long_of_not_wantsRefill (hwants : w.wantsRefill = false) :
    w.complete ∨ w.n ≤ w.rows.length := by
  cases hcompl : w.complete with
  | true => exact .inl rfl
  | false =>
    simp only [Window.wantsRefill, hcompl, Bool.not_false, Bool.true_and,
      decide_eq_false_iff_not] at hwants
    exact .inr (by omega)

theorem exact_apply (hanchor : ∀ cur ∈ c.q.cursor, Keyed kind c.q.sort cur)
    (hedited : Exact t c.pred (edited w ch)) (hlong : w.complete ∨ w.n ≤ w.rows.length)
    (hwants : (edited w ch).wantsRefill → ∃ current : Table kind c.q.sort,
      (∀ x, x ∈ t.rows ↔ x ∈ current.rows) ∧
        answer = current.refiller c.pred (edited w ch).q (edited w ch).refillAfter
          ((edited w ch).cap - (edited w ch).rows.length)) :
    Exact t c.pred (w.apply (fun _ _ _ => answer) ch).1 ∧
      ((w.apply (fun _ _ _ => answer) ch).1.complete ∨ (w.apply (fun _ _ _ => answer) ch).1.n ≤
          (w.apply (fun _ _ _ => answer) ch).1.rows.length) := by
  rcases (apply_refill w ch fun _ _ _ => answer).2 with ⟨heq, hlength, hcompl⟩ | heq
  · rw [heq, hlength, hcompl, n_edited]
    exact ⟨hedited, hlong⟩
  · rw [heq]
    cases hshort : (edited w ch).wantsRefill with
    | false =>
      have hsame : (edited w ch).maybeRefill (fun _ _ _ => answer) = edited w ch := by
        simp [Window.maybeRefill, hshort]
      rw [hsame]
      exact ⟨hedited, long_of_not_wantsRefill hshort⟩
    | true =>
      obtain ⟨current, hrows, rfl⟩ := hwants hshort
      have hsome : (fun (_ : LiveQuery) (_ : Cursor) (_ : Nat) =>
          current.refiller c.pred (edited w ch).q (edited w ch).refillAfter
            ((edited w ch).cap - (edited w ch).rows.length)) (edited w ch).q
              (edited w ch).refillAfter ((edited w ch).cap - (edited w ch).rows.length) ≠
            none := by
        simp [Table.refiller]
      refine ⟨?_, long_maybeRefill hshort hsome⟩
      exact ((hedited.congr hrows).maybeRefill hanchor).congr fun x => (hrows x).symm

variable {current : Table kind c.q.sort} {v : View} {queue : List Change}

theorem agrees_of_stale (hstale : v.isStale ch)
    (h : SameAt t current a ∨ Awaits (ch :: queue) a fun n => v.seen a = some n) :
    SameAt t current a ∨ Awaits queue a fun n => v.seen a = some n := by
  refine h.imp_right ?_
  rintro ⟨last, hlast, hnew⟩
  rcases latest_cons hlast with hlater | ⟨-, rfl, rfl⟩
  · exact ⟨last, hlater, hnew⟩
  · obtain ⟨n, hn, hle⟩ := (Option.any_eq_true _ _).mp hstale
    exact absurd (hnew n hn) (not_lt.mpr (of_decide_eq_true hle))

variable {seen' : String → Option Int}

theorem agrees_of_taken (hch : Admissible kind c.q.sort ch)
    (hordered : Ordered Change.aggId Change.version (ch :: queue))
    (hwritten : latest Change.aggId (ch :: queue) ch.aggId = some ch → ∀ x, x.aggId = ch.aggId →
        (x ∈ current.rows ↔ ch.deleted = false ∧ x = rowFromChange c.q.sort ch))
    (hself : ∀ n, seen' ch.aggId = some n → n ≤ ch.version)
    (hothers : ∀ a, a ≠ ch.aggId → seen' a = v.seen a)
    (h : SameAt t current a ∨ Awaits (ch :: queue) a fun n => v.seen a = some n) :
    SameAt (t.commit ch hch) current a ∨ Awaits queue a fun n => seen' a = some n := by
  rcases eq_or_ne a ch.aggId with rfl | ha
  · have hhistory : history Change.aggId (ch :: queue) ch.aggId =
        ch :: history Change.aggId queue ch.aggId := by simp [history]
    cases hlast : latest Change.aggId queue ch.aggId with
    | none =>
      refine Or.inl fun x hx => (mem_commit_self hch hx).trans (hwritten ?_ x hx).symm
      rw [latest, hhistory, latest_eq_none.mp hlast]
      rfl
    | some last =>
      refine Or.inr ⟨last, hlast, fun n hn => lt_of_le_of_lt (hself n hn) ?_⟩
      have hpair := hordered ch.aggId
      rw [hhistory] at hpair
      exact (pairwise_cons.mp hpair).1 last (mem_of_latest hlast)
  · refine h.imp (fun hsame => (sameAt_commit_of_ne hch ha).trans hsame) ?_
    rintro ⟨last, hlast, hnew⟩
    refine ⟨last, (latest_cons hlast).resolve_right fun hfirst => ha hfirst.2.2.symm, ?_⟩
    rw [hothers a ha]
    exact hnew

variable {answered : Bool} {column : Column}

theorem win_applyReady (hmode : v.q.mode = .maintained) (hwin : v.win = some w)
    (hfresh : v.isStale ch = false) :
    (applyReady (fun _ _ _ => answer) v column ch).1.1.win =
      some (w.apply (fun _ _ _ => answer) ch).1 := by
  obtain ⟨members, heq⟩ := exists_applyReady (fun _ _ _ => answer) column hfresh
  simp [heq, View.absorb, View.markSeen, hmode, hwin]

theorem edited_of_absent (hidx : w.indexOf ch.aggId = none) (hno : w.matchesChange ch = false) :
    edited w ch = w := by
  simp [edited, Window.apply, hidx, hno]

theorem view_dispatch_of_ready {refills : String → Option (List Row)} {p : Partition}
    (hview : p.view c.key = some v) (hready : v.ready) (hcolumn : column = p.column c.key) :
    (p.dispatch ch refills).view c.key = some (if p.selects ch c.key then
      (applyReady (fun _ _ _ => refills c.key) v column ch).1.1 else v) := by
  rw [view_dispatch, hview, map_some, Partition.next, hcolumn]
  split_ifs
  · rw [applyChange, if_pos hready]
  · rfl

theorem Serves.passedBy (h : Serves s v w)
    (hindex : ∃ ix : PredicateIndex, s.partition.index = ix.add c.key c.q.conds)
    (hsel : s.partition.selects ch c.key = false) (habsent : w.contains ch.aggId = false) :
    edited w ch = w := by
  have hidx : w.indexOf ch.aggId = none := by simpa [Window.contains] using habsent
  refine edited_of_absent hidx ?_
  obtain ⟨ix, hix⟩ := hindex
  cases hmatch : w.matchesChange ch with
  | false => rfl
  | true =>
    rw [Window.matchesChange, h.exact.filter] at hmatch
    have hselects := selects_of_compile hix (Bool.and_eq_true_iff.mp hmatch).2
    simp [hsel] at hselects

theorem seen_taken (refill : Refiller) (column : Column) (hfresh : v.isStale ch = false) :
    (∀ n, (applyReady refill v column ch).1.1.seen ch.aggId = some n → n ≤ ch.version) ∧
      ∀ a, a ≠ ch.aggId → (applyReady refill v column ch).1.1.seen a = v.seen a := by
  constructor
  · intro n hn
    rw [seen_applyReady, if_pos ⟨rfl, hfresh⟩] at hn
    exact le_of_eq (some.inj hn).symm
  · intro a ha
    rw [seen_applyReady, if_neg fun hself => ha hself.1]

theorem Serves.taken (h : Serves s v w) (hview : (s.dispatch ch answered).partition.view c.key =
      some (applyReady (fun _ _ _ => answer) v column ch).1.1) (hfresh : v.isStale ch = false)
    (hknown : (s.dispatch ch answered).known = s.known.commit ch hch)
    (htop : ch.version ≤ s.top ch.aggId)
    (hexact : Exact (s.known.commit ch hch) c.pred (w.apply (fun _ _ _ => answer) ch).1)
    (hlong : (w.apply (fun _ _ _ => answer) ch).1.complete ∨
      (w.apply (fun _ _ _ => answer) ch).1.n ≤ (w.apply (fun _ _ _ => answer) ch).1.rows.length) :
    Serves (s.dispatch ch answered) (applyReady (fun _ _ _ => answer) v column ch).1.1
      (w.apply (fun _ _ _ => answer) ch).1 := by
  obtain ⟨members, heq⟩ := exists_applyReady _ column hfresh
  have hmode : v.q.mode = .maintained := h.query ▸ h.maintained
  refine ⟨hview, win_applyReady hmode h.window hfresh, h.maintained, ?_, ?_, ?_,
    (apply_n _ ch).trans h.size, hknown ▸ hexact, hlong, ?_⟩
  · rw [heq]
    exact ready_absorb.trans h.ready
  · rw [heq]
    exact q_absorb.trans h.query
  · rw [heq]
    exact pred_absorb.trans h.filter
  · obtain ⟨hself, hothers⟩ := seen_taken _ column hfresh
    intro a n hn
    rcases eq_or_ne a ch.aggId with rfl | ha
    · exact (hself n hn).trans htop
    · rw [hothers a ha] at hn
      exact h.marks a n hn

theorem drop_of_getElem? {α : Type} {l : List α} {n : Nat} {x : α} (h : l[n]? = some x) :
    l.drop n = x :: l.drop (n + 1) := by
  obtain ⟨hlt, hget⟩ := List.getElem?_eq_some_iff.mp h
  rw [List.drop_eq_getElem_cons hlt, hget]

theorem Versioned.agrees_of_taken (h : Versioned s) (hnext : s.log[s.delivered]? = some ch)
    (hch : Admissible kind c.q.sort ch) (hagrees : ∀ a, SameAt s.known s.current a ∨
      Awaits (s.log.drop s.delivered) a fun n => v.seen a = some n)
    (hself : ∀ n, seen' ch.aggId = some n → n ≤ ch.version)
    (hothers : ∀ a, a ≠ ch.aggId → seen' a = v.seen a) (a : String) :
    SameAt (s.known.commit ch hch) s.current a ∨
      Awaits (s.log.drop (s.delivered + 1)) a fun n => seen' a = some n := by
  have hqueue := drop_of_getElem? hnext
  refine Reconcile.agrees_of_taken hch ?_ ?_ hself hothers (hqueue ▸ hagrees a)
  · rw [← hqueue]
    exact fun k => (h.ordered k).sublist ((drop_sublist _ _).filter _)
  · intro hlast
    refine h.written ch ?_
    rw [← hqueue] at hlast
    have hall : latest Change.aggId (s.log.take s.delivered ++ s.log.drop _)
        ch.aggId = some ch := latest_append_of_some hlast
    rwa [take_append_drop] at hall

theorem Serves.told_of_stale (h : Serves s v w) (hnext : s.log[s.delivered]? = some ch)
    (hstale : v.isStale ch) (hagrees : ∀ a, SameAt s.known s.current a ∨
      Awaits (s.log.drop s.delivered) a fun n => v.seen a = some n) :
    Told (s.dispatch ch answered) := by
  have hview : (s.dispatch ch answered).partition.view c.key = _ :=
    view_dispatch_of_ready h.view h.ready rfl
  simp only [applyReady_of_stale hstale, ite_self] at hview
  have hknown : (s.dispatch ch answered).known = s.known := by
    simp [State.dispatch, h.view, hstale]
  refine ⟨v, w, { h with view := hview, exact := hknown ▸ h.exact }, fun a => ?_⟩
  rw [hknown]
  exact agrees_of_stale hstale (drop_of_getElem? hnext ▸ hagrees a)

theorem Serves.refill_of_last (h : Serves s v w) (hlast : answered ∧ s.delivered + 1 = s.log.length)
    (hagrees : ∀ a, SameAt t s.current a ∨
      Awaits (s.log.drop (s.delivered + 1)) a fun n => seen' a = some n) :
    ∃ current : Table kind c.q.sort, (∀ x, x ∈ t.rows ↔ x ∈ current.rows) ∧
      (if answered then s.refill ch else none) =
        current.refiller c.pred (edited w ch).q (edited w ch).refillAfter
          ((edited w ch).cap - (edited w ch).rows.length) := by
  refine ⟨s.current, fun x => ?_, ?_⟩
  · refine (hagrees x.aggId).resolve_right ?_ x rfl
    rw [hlast.2, drop_length]
    exact not_awaits_nil
  · simp [hlast.1, State.refill, h.view, h.window]

theorem Inv.told_of_fresh (h : Inv s) (hserves : Serves s v w)
    (hnext : s.log[s.delivered]? = some ch) (hfresh : v.isStale ch = false)
    (hagrees : ∀ a, SameAt s.known s.current a ∨
      Awaits (s.log.drop s.delivered) a fun n => v.seen a = some n)
    (hok : keepsUp s (.dispatch answered)) : Told (s.dispatch ch answered) := by
  obtain ⟨hch, htop⟩ := h.versioned.logged ch (mem_of_getElem? hnext)
  have hview : (s.dispatch ch answered).partition.view c.key = _ :=
    view_dispatch_of_ready hserves.view hserves.ready rfl
  have hknown : (s.dispatch ch answered).known = s.known.commit ch hch := by
    simp [State.dispatch, hserves.view, hfresh, put, hch]
  simp only [keepsUp, hnext, hserves.view, hfresh, hserves.window, all_some,
    Bool.false_or, Bool.and_eq_true] at hok
  obtain ⟨hgap, hreach⟩ := hok
  have hedited : Exact (s.known.commit ch hch) c.pred (edited w ch) :=
    Exact.edited h.anchored (s := ⟨s.known, w⟩) hserves.exact hch hgap
  cases hsel : s.partition.selects ch c.key with
  | false =>
    have hsame : edited w ch = w := hserves.passedBy h.indexed hsel (by simpa [hsel] using hreach)
    rw [hsel, if_neg (by simp)] at hview
    rw [hsame, ← hknown] at hedited
    refine ⟨v, w, { hserves with view := hview, exact := hedited }, ?_⟩
    rw [hknown]
    refine h.versioned.agrees_of_taken hnext hch hagrees (fun n hn => ?_) fun _ _ => rfl
    rw [View.isStale, hn, any_some, decide_eq_false_iff_not] at hfresh
    omega
  | true =>
    rw [hsel, if_pos rfl] at hview
    obtain ⟨hself, hothers⟩ := seen_taken
      (fun _ _ _ => if answered then s.refill ch else none) (s.partition.column c.key) hfresh
    have hagrees' := h.versioned.agrees_of_taken hnext hch hagrees hself hothers
    obtain ⟨hexact, hlong⟩ := exact_apply h.anchored hedited hserves.long fun hshort =>
      hserves.refill_of_last (by simpa [hsel, hshort] using hreach) hagrees'
    have hserved := hserves.taken hview hfresh hknown htop hexact hlong
    refine ⟨_, _, hserved, ?_⟩
    rw [hknown]
    exact hagrees'

theorem Inv.dispatch (h : Inv s) (hnext : s.log[s.delivered]? = some ch)
    (hok : keepsUp s (.dispatch answered)) : Inv (s.dispatch ch answered) := by
  obtain ⟨v, w, hserves, hagrees⟩ := h.served
  obtain ⟨hlt, -⟩ := List.getElem?_eq_some_iff.mp hnext
  refine ⟨h.indexed, h.anchored, ?_, ?_, ?_⟩
  · exact ⟨hlt, h.versioned.ordered, h.versioned.logged, h.versioned.rows, h.versioned.written⟩
  · intro position t hmem
    have hread := h.reads position t hmem
    exact ⟨hread.position_le, hread.rows, hread.current⟩
  · cases hstale : v.isStale ch with
    | true => exact hserves.told_of_stale hnext hstale hagrees
    | false => exact h.told_of_fresh hserves hnext hstale hagrees hok

theorem inv_step {u : State kind c} {a : Action} (h : Inv s) (hok : keepsUp s a)
    (hstep : step s a = some u) : Inv u := by
  cases a with
  | commit ch =>
    simp only [step] at hstep
    split_ifs at hstep with hch
    cases hstep
    exact h.commit hch.1 hch.2
  | dispatch _ =>
    obtain ⟨ch, hnext, rfl⟩ := map_eq_some_iff.mp hstep
    exact h.dispatch hnext hok
  | readOracle =>
    cases hstep
    exact h.readOracle
  | compare i =>
    obtain ⟨⟨position, t⟩, hread, rfl⟩ := map_eq_some_iff.mp hstep
    exact h.compare hread hok

theorem settled_watching {top : String → Int} (hmode : c.q.mode = .maintained)
    (hanchor : c.q.cursor = none) (hrows : ∀ x ∈ t.rows, x.version ≤ top x.aggId) :
    Settled (watching t top) where
  indexed := ⟨_, rfl⟩
  anchored := by simp [hanchor]
  versioned := ⟨Nat.le_refl 0, ordered_nil, nofun, hrows, nofun⟩
  reads := rfl
  known := rfl
  served := by
    have hview : (watching t top).partition.view c.key = some
        (seedView _ _ _ _ []).1 :=
      view_put.trans (if_pos rfl)
    have hquery : (newView c.q c.pred).q.mode = .maintained := hmode
    simp only [seedView, hquery] at hview
    refine ⟨_, _, hview, rfl, hmode, rfl, rfl, rfl, rfl, exact_page hanchor, long_page, ?_⟩
    intro a n hn
    obtain ⟨x, hx, rfl, rfl⟩ := seen_page hn
    exact hrows x hx

def repairedAhead : List Action :=
  [.commit (rankChange "b" 2 0), .readOracle, .compare 0, .dispatch true,
    .commit { rankChange "b" 3 0 with deleted := true }, .readOracle, .dispatch true, .compare 0]

end Fabriq.Live.Reconcile
