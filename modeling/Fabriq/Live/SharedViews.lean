import Fabriq.Live.ScopeIsolation

namespace Fabriq.Live.SharedViews

open Core.Value Query.Filter Live.CandidateIndex Live.Dispatcher Live.MaintainedWindow Option
  Live.Match Live.ScopeIsolation Live.Types Lib.Splice

/-- The parts of a query that `shapeKey` encodes. -/
structure Shape where
  mode : Mode
  limit : Nat
  sort : List SortKey
  conds : Where
  cursor : Option Cursor

def shape (q : LiveQuery) : Shape :=
  ⟨q.mode, q.limit, q.sort, q.conds, q.cursor⟩

def opName : Op → String
  | .eq => "eq"
  | .ne => "ne"
  | .gt => "gt"
  | .gte => "gte"
  | .lt => "lt"
  | .lte => "lte"
  | .isIn => "in"
  | .notIn => "notin"
  | .like => "like"
  | .ilike => "ilike"
  | .isNull => "isnull"
  | .isNotNull => "isnotnull"
  | .unknown name => name

/-- How an operand is encoded, if it can be, and the text of an encoded value. -/
structure Codec where
  operand : Operand → Option Json
  text : Json → String

section

variable (codec : Codec)

mutual

def Codec.cond : Cond → Option Json
  | .leaf column op value => do
    let v ← codec.operand value
    return .obj [("Column", .str column), ("Op", .str (opName op)), ("Value", v), ("Or", .null)]
  | .group first rest => do
    let alternatives := (← Codec.cond first) :: (← Codec.conds rest)
    return .obj [("Column", .str ""), ("Op", .str ""), ("Value", .null), ("Or", .arr alternatives)]

def Codec.conds : Where → Option (List Json)
  | [] => some []
  | c :: rest => return (← Codec.cond c) :: (← Codec.conds rest)

end

def sortJson (key : SortKey) : Json :=
  .obj [("Column", .str key.column), ("Desc", .bool key.desc)]

/-- The anonymous struct of `shapeKey`; a nil list is not told from an empty one. -/
def Codec.marshal (s : Shape) : Option Json :=
  (codec.conds s.conds).map fun w =>
    .obj [("m", .num s.mode.ctorIdx), ("l", .num s.limit), ("s", .arr (s.sort.map sortJson)),
      ("w", .arr w), ("c", s.cursor.elim .null fun c => .obj [("values", .arr c.values)])]

/-- The error of the encoder is dropped, which leaves the empty key. -/
def shapeKey (q : LiveQuery) : String :=
  ((codec.marshal (shape q)).map codec.text).getD ""

end

/-- What happens to one view.  The rows the database answers with stand in the turn. -/
inductive Turn
  | change (ch : Change) (refill : Option (List Row))
  | seed (page : List Row) (ids : List String) (refills : List (Option (List Row)))
  | join

/-- The view after a turn, and what the turn sends: the snapshot of a join, the deltas of a change
or of the replay.  `hit` is whether the predicate index names the view. -/
def turn (cushion : Nat) (hit : Vals → Bool) (s : View × Column) :
    Turn → (View × Column) × List Row × List LiveDelta
  | .change ch refill =>
    if hit ch.vals || s.2 ch.aggId then
      let next := applyChange (fun _ _ _ => refill) s.1 s.2 ch
      (next.1, [], next.2)
    else (s, [], [])
  | .seed page ids refills =>
    let seeded := seedView cushion s.1 s.2 page ids
    (drain refills seeded.1 seeded.2 s.1.pending, [],
      drainDeltas refills seeded.1 seeded.2 s.1.pending)
  | .join => (s, snapshot s.1, [])

def sent (cushion : Nat) (hit : Vals → Bool) :
    View × Column → List Turn → List (List Row × List LiveDelta)
  | _, [] => []
  | s, t :: turns =>
    (turn cushion hit s t).2 :: sent cushion hit (turn cushion hit s t).1 turns

/-- Everything a subscriber can receive from a view that `attach` creates for `q`. -/
def received (e : Engine) (index : PredicateIndex) (q : LiveQuery) :
    List Turn → List (List Row × List LiveDelta) :=
  sent e.cushion (fun vals => (index.add (e.shapeKey q) q.conds).candidates vals (e.shapeKey q))
    (newView q (compile e.toLower q.conds), fun _ => false)

mutual

def printed : Json → String
  | .null => "null"
  | .bool b => toString b
  | .num q => toString q
  | .str s => s.quote
  | .arr elems => "[" ++ ",".intercalate (printedElems elems) ++ "]"
  | .obj fields => "\x7b" ++ ",".intercalate (printedFields fields) ++ "\x7d"

def printedElems : List Json → List String
  | [] => []
  | v :: rest => printed v :: printedElems rest

def printedFields : List (String × Json) → List String
  | [] => []
  | (k, v) :: rest => (k.quote ++ ":" ++ printed v) :: printedFields rest

end

def strings : Operand → Option Json
  | .str s => some (.str s)
  | .slice _ elems => (elems.mapM fun | Operand.str s => some (Json.str s) | _ => none).map .arr
  | _ => none

def rankEngine : Engine :=
  ⟨0, shapeKey ⟨strings, printed⟩, id⟩

theorem received_unfiltered (e : Engine) {q : LiveQuery} (hconds : q.conds = [])
    (turns : List Turn) : received e .empty q turns =
      sent e.cushion (fun _ => true) (newView q (compile e.toLower q.conds), fun _ => false)
        turns := by
  have hhit (vals : Vals) (key : String) :
      (PredicateIndex.empty.add key q.conds).candidates vals key = true := by
    simp [hconds, PredicateIndex.add, PredicateIndex.candidates, constrained, equalityColumns]
  rw [received, funext fun vals => hhit vals _]

/-- The key leaves out `FieldDeltas`: a subscriber that wants the changed fields and joins the view
of one that does not never gets them. -/
theorem fieldDeltas_not_shared :
    (∀ codec, shapeKey codec byRank = shapeKey codec { byRank with fieldDeltas := true }) ∧
      received rankEngine .empty byRank
          [.seed [rankRow "a" 1] [] [], .join, .change (rankChange "a" 2 2) none] ≠
        received rankEngine .empty { byRank with fieldDeltas := true }
          [.seed [rankRow "a" 1] [] [], .join, .change (rankChange "a" 2 2) none] := by
  refine ⟨fun _ => rfl, fun h => ?_⟩
  rw [received_unfiltered _ rfl, received_unfiltered _ rfl] at h
  have hchanges := congrArg (List.map fun out => out.2.map fun d => d.changes.isSome) h
  revert hchanges
  decide +kernel

/-- The query without the parts that only the database and the matcher read. -/
def queryCore (q : LiveQuery) : LiveQuery :=
  { q with entity := "", conds := [], cursor := none }

def windowCore (w : Window) : Window :=
  { w with q := queryCore w.q }

def viewCore (v : View) : View :=
  { v with q := queryCore v.q, win := v.win.map windowCore }

variable {w : Window} {v : View} {column : Column} {ch : Change} {answer : Option (List Row)}

theorem mode_viewCore : (viewCore v).q.mode = v.q.mode := rfl

theorem win_viewCore : (viewCore v).win = v.win.map windowCore := rfl

theorem trimTail_windowCore : (windowCore w).trimTail = windowCore w.trimTail := by
  change (if w.cap < w.rows.length then _ else _) = windowCore (if _ then _ else _)
  split_ifs <;> rfl

theorem maybeRefill_windowCore : (windowCore w).maybeRefill (fun _ _ _ => answer) =
      windowCore (w.maybeRefill fun _ _ _ => answer) := by
  change (if w.wantsRefill then _ else _) = windowCore (if w.wantsRefill then _ else _)
  cases answer <;> split_ifs <;> rfl

theorem edit_windowCore (rows : List Row) :
    ({ windowCore w with rows := rows }.trimTail).maybeRefill (fun _ _ _ => answer) =
      windowCore ({ w with rows := rows }.trimTail.maybeRefill fun _ _ _ => answer) := by
  rw [← maybeRefill_windowCore, ← trimTail_windowCore]
  rfl

theorem insert_windowCore : (windowCore w).insert (fun _ _ _ => answer) ch =
      (w.insert (fun _ _ _ => answer) ch).map windowCore id := by
  rw [Window.insert, Window.insert, apply_ite (Prod.map _ id)]
  exact congrArg₂ _ rfl (Prod.ext (edit_windowCore _) rfl)

theorem reposition_windowCore (old : Nat) (held : Row) :
    (windowCore w).reposition (fun _ _ _ => answer) old held ch =
      (w.reposition (fun _ _ _ => answer) old held ch).map windowCore id := by
  rw [Window.reposition, Window.reposition, apply_ite (Prod.map _ id)]
  exact congrArg₂ _ rfl (Prod.ext (edit_windowCore _) rfl)

theorem apply_windowCore : (windowCore w).apply (fun _ _ _ => answer) ch =
      (w.apply (fun _ _ _ => answer) ch).map windowCore id := by
  have hidx : (windowCore w).indexOf ch.aggId = w.indexOf ch.aggId := rfl
  have hrows : (windowCore w).rows = w.rows := rfl
  rw [Window.apply, Window.apply, hidx, hrows]
  cases w.indexOf ch.aggId with
  | none =>
    dsimp only
    rw [apply_ite (Prod.map _ id)]
    exact congrArg₂ _ insert_windowCore rfl
  | some old =>
    dsimp only
    cases w.rows[old]? with
    | none => rfl
    | some held =>
      dsimp only
      rw [apply_ite (Prod.map _ id)]
      refine congrArg₂ _ (reposition_windowCore _ _) (Prod.ext ?_ rfl)
      exact maybeRefill_windowCore (w := { w with rows := spliceOut w.rows old })

theorem applyStreamed_viewCore :
    (viewCore v).applyStreamed ch = (v.applyStreamed ch).map viewCore id := by
  have hmatches : (viewCore v).matchesChange ch = v.matchesChange ch := rfl
  have hmembers : (viewCore v).streamMembers = v.streamMembers := rfl
  unfold View.applyStreamed View.rememberVals
  rw [hmatches, hmembers]
  cases v.matchesChange ch <;> cases v.streamMembers ch.aggId <;>
    cases hdeltas : v.q.fieldDeltas <;> simp [viewCore, queryCore, hdeltas]

theorem absorb_viewCore : (viewCore v).absorb (fun _ _ _ => answer) ch =
      (v.absorb (fun _ _ _ => answer) ch).map viewCore id := by
  rw [View.absorb, View.absorb, mode_viewCore, win_viewCore]
  cases v.q.mode with
  | streamed => exact applyStreamed_viewCore
  | maintained =>
    cases v.win with
    | none => rfl
    | some w =>
      dsimp only [map_some]
      rw [apply_windowCore]
      rfl

theorem contains_viewCore (aggId : String) : (viewCore v).contains aggId = v.contains aggId := by
  rw [View.contains, View.contains, mode_viewCore, win_viewCore, any_map]
  rfl

theorem applyReady_viewCore : applyReady (fun _ _ _ => answer) (viewCore v) column ch =
      (applyReady (fun _ _ _ => answer) v column ch).map (Prod.map viewCore id) id := by
  have hseen : (viewCore v).markSeen ch = viewCore (v.markSeen ch) := rfl
  rw [applyReady, applyReady, apply_ite (Prod.map _ id), hseen,
    absorb_viewCore]
  refine congrArg₂ _ rfl (Prod.ext ?_ rfl)
  simp only [Prod.map_fst, contains_viewCore, apply_ite (Prod.map viewCore id)]
  rfl

theorem applyChange_viewCore : applyChange (fun _ _ _ => answer) (viewCore v) column ch =
      (applyChange (fun _ _ _ => answer) v column ch).map (Prod.map viewCore id) id := by
  rw [applyChange, applyChange, apply_ite (Prod.map _ id)]
  exact congrArg₂ _ applyReady_viewCore rfl

theorem drain_viewCore (refills : List (Option (List Row))) (changes : List Change) :
    drain refills (viewCore v) column changes = (drain refills v column changes).map viewCore id ∧
      drainDeltas refills (viewCore v) column changes = drainDeltas refills v column changes := by
  induction changes generalizing refills v column with
  | nil => exact ⟨rfl, rfl⟩
  | cons ch rest ih =>
    simp only [drain, drainDeltas, applyReady_viewCore, Prod.map_fst, Prod.map_snd, id_eq]
    exact ⟨(ih _).1, congrArg _ (ih _).2⟩

theorem seedView_viewCore (cushion : Nat) (page : List Row) (ids : List String) :
    seedView cushion (viewCore v) column page ids =
      (seedView cushion v column page ids).map viewCore id := by
  rw [seedView, seedView, mode_viewCore]
  cases v.q.mode <;> rfl

theorem snapshot_viewCore : snapshot (viewCore v) = snapshot v := by
  rw [snapshot, snapshot, mode_viewCore, win_viewCore, map_map]
  rfl

theorem turn_viewCore (cushion : Nat) (hit : Vals → Bool) (s : View × Column) (t : Turn) :
    turn cushion hit (s.map viewCore id) t =
      (turn cushion hit s t).map (Prod.map viewCore id) id := by
  cases t with
  | change ch refill =>
    rw [turn, turn, apply_ite (Prod.map _ id)]
    refine congrArg₂ _ ?_ rfl
    dsimp only [Prod.map_fst, Prod.map_snd, id_eq]
    rw [applyChange_viewCore]
    rfl
  | seed page ids refills =>
    dsimp only [turn, Prod.map_fst, Prod.map_snd, id_eq]
    rw [seedView_viewCore]
    exact Prod.ext (drain_viewCore _ _).1 (Prod.ext rfl (drain_viewCore _ _).2)
  | join => exact Prod.ext rfl (Prod.ext snapshot_viewCore rfl)

theorem sent_viewCore (cushion : Nat) (hit : Vals → Bool) (turns : List Turn) (s : View × Column) :
    sent cushion hit (s.map viewCore id) turns = sent cushion hit s turns := by
  induction turns generalizing s with
  | nil => rfl
  | cons t turns ih =>
    rw [sent, sent, turn_viewCore]
    exact congrArg₂ _ rfl (ih _)

structure Alike (e : Engine) (codec : Codec) (index : PredicateIndex) (q other : LiveQuery) :
    Prop where
  encoded : (codec.marshal (shape q)).isSome ∧ (codec.marshal (shape other)).isSome
  fieldDeltas : q.fieldDeltas = other.fieldDeltas
  matched : compile e.toLower q.conds = compile e.toLower other.conds
  indexed : ∀ id vals, (index.add id q.conds).candidates vals id =
    (index.add id other.conds).candidates vals id

theorem ctorIdx_injective : Function.Injective Mode.ctorIdx := by
  rintro ⟨⟩ ⟨⟩ h <;> first | rfl | cases h

theorem sortJson_injective : Function.Injective sortJson := by
  rintro ⟨column, desc⟩ ⟨column', desc'⟩ h
  simpa [sortJson] using h

theorem marshal_parts {codec : Codec} {s t : Shape} {v : Json} (hs : codec.marshal s = some v)
    (ht : codec.marshal t = some v) : s.mode = t.mode ∧ s.limit = t.limit ∧ s.sort = t.sort := by
  obtain ⟨w, -, rfl⟩ := map_eq_some_iff.mp hs
  obtain ⟨w', -, h⟩ := map_eq_some_iff.mp ht
  simp only [Json.obj.injEq, Json.num.injEq, Json.arr.injEq, List.cons.injEq, Prod.mk.injEq,
    true_and, Nat.cast_inj, sortJson_injective.list_map.eq_iff] at h
  exact ⟨ctorIdx_injective h.1.symm, h.2.1.symm, h.2.2.1.symm⟩

/-- `htext`: the text of an encoded shape determines it. -/
theorem received_eq_of_alike (e : Engine) (codec : Codec)
    (index : PredicateIndex) (q other : LiveQuery) (hengine : e.shapeKey = shapeKey codec)
    (htext : ∀ a ∈ codec.marshal (shape q), ∀ b ∈ codec.marshal (shape other),
      codec.text a = codec.text b → a = b)
    (hkey : e.shapeKey q = e.shapeKey other) (halike : Alike e codec index q other)
    (turns : List Turn) :
    received e index q turns = received e index other turns := by
  obtain ⟨a, hq⟩ := isSome_iff_exists.mp halike.encoded.1
  obtain ⟨b, hother⟩ := isSome_iff_exists.mp halike.encoded.2
  have hab : a = b := by
    rw [hengine, shapeKey, shapeKey, hq, hother] at hkey
    exact htext a hq b hother hkey
  obtain ⟨hmode, hlimit, hsort⟩ := marshal_parts hq (hab ▸ hother)
  have hcore : queryCore q = queryCore other := by
    rcases q with ⟨entity, conds, sort, limit, cursor, mode, fieldDeltas⟩
    rcases other with ⟨entity', conds', sort', limit', cursor', mode', fieldDeltas'⟩
    obtain rfl : mode = mode' := hmode
    obtain rfl : limit = limit' := hlimit
    obtain rfl : sort = sort' := hsort
    obtain rfl : fieldDeltas = fieldDeltas' := halike.fieldDeltas
    rfl
  have hview : viewCore (newView q (compile e.toLower q.conds)) =
      viewCore (newView other (compile e.toLower other.conds)) := by
    rw [halike.matched]
    exact congrArg (fun core => newView core (compile e.toLower other.conds)) hcore
  rw [received, received, ← sent_viewCore, ← sent_viewCore _ _ _ (newView other _, _), hkey,
    Prod.map_apply, Prod.map_apply, hview, funext (halike.indexed _)]

def named (kind : SliceKind) : LiveQuery :=
  { byRank with conds := [.leaf "name" .isIn (.slice kind [.str "pump"])] }

theorem compile_named (kind : SliceKind) :
    compile id (named kind).conds = compile id (named .anys).conds := by
  funext row
  simp only [compile, named, eval, evalCond, evalLeaf]
  rcases row.find "name" with _ | _ | _ <;> rfl

/-- The two filters have one encoding. -/
theorem received_named : received rankEngine .empty (named .strings)
        [.seed [rankRow "a" 1] [] [], .join, .change (rankChange "a" 2 2) none] =
      received rankEngine .empty (named .anys)
        [.seed [rankRow "a" 1] [] [], .join, .change (rankChange "a" 2 2) none] :=
  received_eq_of_alike _ ⟨strings, printed⟩ .empty (named .strings) (named .anys) rfl
    (fun _ ha _ hb _ => Option.some.inj (ha.symm.trans hb)) rfl
    ⟨by decide, rfl, compile_named .strings, fun _ _ => rfl⟩ _

end Fabriq.Live.SharedViews
