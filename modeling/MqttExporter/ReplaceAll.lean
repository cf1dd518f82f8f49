import MqttExporter.Base.Occurrences
import MqttExporter.Configuration

/-!
# Replacing every occurrence

The loop of `replaceAll` edits the text that it searches. Behind the position it
goes on from lies the rest of the text as it was passed, so each turn finds
the next occurrence of that text and none that an insertion made.

* `turn_first`: what one turn finds, and what it leaves;
* `turns_before`: the text and the position after any number of turns;
* `replaceAll_exact`: the loop ends, and every occurrence is replaced once.
-/

namespace MqttExporter

open Replace

/-! ## The loop -/

/-- The first position at which `fromStr` occurs. -/
def findFirst (fromStr : Str) : Str → Option Nat
  | [] => if fromStr = [] then some 0 else none
  | c :: s => if fromStr <+: c :: s then some 0 else (findFirst fromStr s).map (· + 1)

/-- `str.find(fromStr, pos)`, with `none` for `npos`. -/
def find (str fromStr : Str) (pos : Nat) : Option Nat :=
  if pos ≤ str.length then (findFirst fromStr (str.drop pos)).map (pos + ·) else none

/-- The `while` loop of `replaceAll`; `none` when the fuel ends before the loop. -/
def replaceAllLoop (fromStr toStr : Str) : Nat → Str → Nat → Option Str
  | 0, _, _ => none
  | fuel + 1, str, startPos =>
    match find str fromStr startPos with
    | none => some str
    | some pos =>
      replaceAllLoop fromStr toStr fuel (str.take pos ++ toStr ++ str.drop (pos + fromStr.length))
        (pos + toStr.length)

/-- The loop ends for every text that is searched for, unless that is empty. -/
def replaceAll (str fromStr toStr : Str) : Str :=
  (replaceAllLoop fromStr toStr (str.length + 1) str 0).getD str

/-! ## The search -/

theorem findFirst_eq_some {fromStr s : Str} {n : Nat} :
    findFirst fromStr s = some n ↔ First fromStr s 0 n := by
  induction s generalizing n with
  | nil =>
    rw [findFirst]
    by_cases hf : fromStr = []
    · have hhere : fromStr <+: List.drop 0 [] := by simp [hf]
      rw [if_pos hf, first_here hhere, Option.some.injEq, eq_comm]
    · rw [if_neg hf]
      constructor
      · simp
      · intro h
        exact absurd (by simpa using h.occurs) hf
  | cons c s ih =>
    rw [findFirst]
    by_cases hc : fromStr <+: c :: s
    · have hhere : fromStr <+: List.drop 0 (c :: s) := hc
      rw [if_pos hc, first_here hhere, Option.some.injEq, eq_comm]
    · rw [if_neg hc]
      cases n with
      | zero =>
        constructor
        · simp
        · intro h
          exact absurd h.occurs hc
      | succ n =>
        rw [first_cons hc, ← ih]
        simp

/-- A search that starts behind `done` does not see it. -/
theorem find_append (done rest fromStr : Str) :
    find (done ++ rest) fromStr done.length =
      (findFirst fromStr rest).map (done.length + ·) := by
  simp [find]

theorem find_first {fromStr str : Str} {start i : Nat} (h : First fromStr str start i)
    (done : Str) : find (done ++ str.drop start) fromStr done.length =
      some (done.length + (i - start)) := by
  rw [find_append, findFirst_eq_some.mpr h.drop, Option.map_some]

theorem find_absent {fromStr str : Str} {start : Nat} (h : Leftmost fromStr str start [])
    (done : Str) : find (done ++ str.drop start) fromStr done.length = none := by
  rw [find_append, Option.map_eq_none_iff]
  cases hf : findFirst fromStr (str.drop start) with
  | none => rfl
  | some n =>
    have hocc := (findFirst_eq_some.mp hf).occurs
    rw [List.drop_drop] at hocc
    exact absurd hocc (leftmost_nil.mp h (start + n) (by omega))

/-! ## One turn -/

/-- The text and `startPos` after one turn of the `while` loop, unless it ends there. -/
def turn (fromStr toStr : Str) (st : Str × Nat) : Option (Str × Nat) :=
  (find st.1 fromStr st.2).map fun pos =>
    (st.1.take pos ++ toStr ++ st.1.drop (pos + fromStr.length), pos + toStr.length)

theorem replaceAllLoop_turn (fromStr toStr : Str) (fuel : Nat) (st : Str × Nat) :
    replaceAllLoop fromStr toStr (fuel + 1) st.1 st.2 =
      match turn fromStr toStr st with
      | none => some st.1
      | some st' => replaceAllLoop fromStr toStr fuel st'.1 st'.2 := by
  rw [replaceAllLoop, turn]
  cases find st.1 fromStr st.2 with
  | none => rfl
  | some pos => rfl

/-- What lies behind `done` is kept up to the first occurrence and from its end on. -/
theorem turn_first {fromStr str : Str} {start i : Nat} (hn : fromStr ≠ [])
    (h : First fromStr str start i) (toStr done : Str) :
    turn fromStr toStr (done ++ str.drop start, done.length) =
      some (done ++ ((str.drop start).take (i - start) ++ toStr) ++ str.drop (i + fromStr.length),
        (done ++ ((str.drop start).take (i - start) ++ toStr)).length) := by
  have hle := h.le
  have hend := h.length_le hn
  have htake : (done ++ str.drop start).take (done.length + (i - start)) =
      done ++ (str.drop start).take (i - start) := List.take_length_add_append ..
  have hdrop : (done ++ str.drop start).drop (done.length + (i - start) + fromStr.length) =
      str.drop (i + fromStr.length) := by
    rw [Nat.add_assoc, List.drop_length_add_append, List.drop_drop]
    congr 1
    omega
  have hlen : ((str.drop start).take (i - start)).length = i - start := by
    rw [List.length_take, List.length_drop]
    omega
  simp only [turn, find_first h, Option.map_some, htake, hdrop]
  simp only [List.length_append, hlen, List.append_assoc, Nat.add_assoc]

/-! ## All turns -/

/-- So many turns, `none` when the loop ends before. -/
def turns (fromStr toStr : Str) : Nat → Str × Nat → Option (Str × Nat)
  | 0, st => some st
  | n + 1, st => (turn fromStr toStr st).bind (turns fromStr toStr n)

theorem turns_before {fromStr str : Str} (hn : fromStr ≠ []) (toStr : Str) {before later : List Nat}
    {start : Nat} (h : Leftmost fromStr str start (before ++ later)) (done : Str) :
    turns fromStr toStr before.length (done ++ str.drop start, done.length) =
      some (done ++ rewritten fromStr toStr str start before ++
          str.drop (behind fromStr start before),
        (done ++ rewritten fromStr toStr str start before).length) := by
  induction before generalizing start done with
  | nil => simp [turns, rewritten, behind]
  | cons i before ih =>
    have hrest := ih (h.rest hn) (done ++ ((str.drop start).take (i - start) ++ toStr))
    rw [List.length_cons, turns, turn_first hn h.first, Option.bind_some, hrest, rewritten, behind]
    simp only [List.append_assoc]

/-- A loop that makes `n` turns and no other needs fuel for one search more. -/
theorem replaceAllLoop_turns {fromStr toStr : Str} {n : Nat} {st last : Str × Nat}
    (h : turns fromStr toStr n st = some last) (hlast : turn fromStr toStr last = none)
    (fuel : Nat) : replaceAllLoop fromStr toStr fuel st.1 st.2 =
      if n < fuel then some last.1 else none := by
  induction n generalizing st fuel with
  | zero =>
    cases h
    cases fuel with
    | zero => rfl
    | succ fuel => simp [replaceAllLoop_turn, hlast]
  | succ n ih =>
    obtain ⟨next, hturn, hrest⟩ := Option.bind_eq_some_iff.mp h
    cases fuel with
    | zero => rfl
    | succ fuel => simp [replaceAllLoop_turn, hturn, ih hrest fuel]

/-- The text when the occurrences at `before` have been replaced, and where the
loop goes on. -/
def replaced (fromStr toStr str : Str) (before : List Nat) : Str × Nat :=
  (splice fromStr toStr str before, (rewritten fromStr toStr str 0 before).length)

theorem turns_replaced {fromStr str : Str} (hn : fromStr ≠ []) (toStr : Str)
    {before later : List Nat} (h : Leftmost fromStr str 0 (before ++ later)) :
    turns fromStr toStr before.length (str, 0) = some (replaced fromStr toStr str before) := by
  have hrun := turns_before hn toStr h []
  simpa [replaced, splice] using hrun

/-- The next search finds the next occurrence of the text as it was passed, moved
by as much as the text before it has grown. -/
theorem find_replaced {fromStr str : Str} (hn : fromStr ≠ []) (toStr : Str)
    {before later : List Nat} (h : Leftmost fromStr str 0 (before ++ later)) :
    find (replaced fromStr toStr str before).1 fromStr (replaced fromStr toStr str before).2 =
      later.head?.map fun i =>
        (replaced fromStr toStr str before).2 + (i - behind fromStr 0 before) := by
  have hlater := h.later hn
  cases later with
  | nil => exact find_absent hlater _
  | cons i later => exact find_first hlater.first _

theorem replaceAllLoop_found {fromStr str : Str} (hn : fromStr ≠ []) (toStr : Str)
    {found : List Nat} (h : Leftmost fromStr str 0 found) (fuel : Nat) :
    replaceAllLoop fromStr toStr fuel str 0 =
      if found.length < fuel then some (splice fromStr toStr str found) else none := by
  have hall : Leftmost fromStr str 0 (found ++ []) := by
    rw [List.append_nil]
    exact h
  have hend : turn fromStr toStr (replaced fromStr toStr str found) = none := by
    rw [turn, find_replaced hn toStr hall]
    rfl
  exact replaceAllLoop_turns (turns_replaced hn toStr hall) hend fuel

theorem replaceAll_found {fromStr str : Str} (hn : fromStr ≠ []) (toStr : Str) {found : List Nat}
    (h : Leftmost fromStr str 0 found) :
    replaceAll str fromStr toStr = splice fromStr toStr str found := by
  have hlen := h.length_le hn
  rw [replaceAll, replaceAllLoop_found hn toStr h, if_pos (by omega), Option.getD_some]

theorem replaceAll_eq {fromStr : Str} (hn : fromStr ≠ []) (str toStr : Str) :
    replaceAll str fromStr toStr = Replace.replace fromStr toStr str := by
  have h := leftmost_spec hn str
  rw [replaceAll_found hn toStr h, replace_eq_splice hn h]

/-- The occurrences read off the text from the left are replaced, one in each turn. The
loop ends behind the last one, and each search sees the text as it was passed. -/
theorem replaceAll_exact {fromStr : Str} (hn : fromStr ≠ []) (toStr str : Str) :
    (∃! found, Leftmost fromStr str 0 found) ∧
      ∀ found, Leftmost fromStr str 0 found →
        replaceAll str fromStr toStr = splice fromStr toStr str found ∧
        (∀ fuel, replaceAllLoop fromStr toStr fuel str 0 =
          if found.length < fuel then some (splice fromStr toStr str found) else none) ∧
        ∀ before later, found = before ++ later →
          turns fromStr toStr before.length (str, 0) = some (replaced fromStr toStr str before) ∧
          find (replaced fromStr toStr str before).1 fromStr (replaced fromStr toStr str before).2 =
            later.head?.map fun i =>
              (replaced fromStr toStr str before).2 + (i - behind fromStr 0 before) := by
  constructor
  · exact ⟨leftmost fromStr str 0 0, leftmost_spec hn str,
      fun other h => (leftmost_spec hn str).unique hn h⟩
  · intro found h
    refine ⟨replaceAll_found hn toStr h, replaceAllLoop_found hn toStr h, ?_⟩
    intro before later heq
    subst heq
    exact ⟨turns_replaced hn toStr h, find_replaced hn toStr h⟩

theorem replaceAll_exact_overlap :
    replaceAll "aaaaa".toList "aa".toList "aaa".toList = "aaaaaaa".toList ∧
      turns "aa".toList "aaa".toList 1 ("aaaaa".toList, 0) = some ("aaaaaa".toList, 3) := by
  have hn : "aa".toList ≠ [] := by decide
  have hl : Leftmost "aa".toList "aaaaa".toList 0 [0, 2] := leftmost_spec hn "aaaaa".toList
  obtain ⟨_, hexact⟩ := replaceAll_exact hn "aaa".toList "aaaaa".toList
  obtain ⟨hresult, _, hruns⟩ := hexact [0, 2] hl
  exact ⟨hresult, (hruns [0] [2] rfl).1⟩

end MqttExporter
