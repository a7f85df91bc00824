import GuardedScript.Proofs.RunLoop

/-!
The moves of a command pointer. A pointer stands before a command of its list or, complete, behind
the last one, and once it has stopped nothing moves it. So of any number of moves only the advances
in front and the first other move count, and they tell where the pointer ends and how it stands. A
thread moves its pointer in no other way.
-/

namespace GuardedScript

namespace Pointer

inductive Move where
  | advance
  | markReturned
  | fault
  deriving DecidableEq, Repr

/-- How a pointer stands that the move has stopped. -/
def Move.ending : Move → Option Status
  | .advance => none
  | .markReturned => some .returned
  | .fault => some .faulted

def move (p : Pointer) : Move → Pointer
  | .advance => p.advance
  | .markReturned => p.markReturned
  | .fault => p.fault

def moved (p : Pointer) (moves : List Move) : Pointer := moves.foldl move p

/-- How many advances there are before the first other move. -/
def advances (moves : List Move) : Nat := (moves.takeWhile (· = .advance)).length

/-- The pointer is at one of `count` commands, or complete and behind the last one. -/
structure Within (count : Nat) (p : Pointer) : Prop where
  count_eq : p.count = count
  index_le : p.index ≤ count
  completed_iff : p.status = .completed ↔ p.index = count

variable {p : Pointer} {count : Nat}

theorem moved_append (p : Pointer) (ms more : List Move) :
    p.moved (ms ++ more) = (p.moved ms).moved more := List.foldl_append

theorem within_start (count : Nat) : (start count).Within count := by
  refine ⟨rfl, Nat.zero_le count, ?_⟩
  by_cases hc : count = 0
  · simp [start, hc]
  · simp [start, hc, Ne.symm hc]

namespace Within

theorem index_lt (hp : p.Within count) (hs : p.status ≠ .completed) : p.index < count :=
  Nat.lt_of_le_of_ne hp.index_le fun h => hs (hp.completed_iff.mpr h)

theorem index_lt_of_running (hp : p.Within count) (hs : ¬ p.isStopped = true) : p.index < count :=
  hp.index_lt fun hc => hs (by simp [isStopped, hc])

theorem advance (hp : p.Within count) : p.advance.Within count := by
  unfold Pointer.advance
  split
  · exact hp
  · next hs =>
    have hlt := hp.index_lt_of_running hs
    refine ⟨hp.count_eq, hlt, ?_⟩
    rw [hp.count_eq]
    by_cases hlast : count ≤ p.index + 1
    · rw [if_pos hlast]
      exact iff_of_true rfl (Nat.le_antisymm hlt hlast)
    · rw [if_neg hlast]
      exact iff_of_false (by simp) fun h => hlast (Nat.le_of_eq h.symm)

theorem stop (hp : p.Within count) {status : Status} (hs : status ≠ .completed) :
    (p.stop status).Within count := by
  unfold Pointer.stop
  split
  · exact hp
  · next hr =>
    exact ⟨hp.count_eq, hp.index_le,
      iff_of_false hs (Nat.ne_of_lt (hp.index_lt_of_running hr))⟩

theorem move (hp : p.Within count) (m : Move) : (p.move m).Within count := by
  cases m with
  | advance => exact hp.advance
  | markReturned => exact hp.stop (by decide)
  | fault => exact hp.stop (by decide)

theorem moved (hp : p.Within count) (moves : List Move) : (p.moved moves).Within count := by
  induction moves generalizing p with
  | nil => exact hp
  | cons m ms ih => exact ih (hp.move m)

end Within

theorem move_of_stopped (hs : p.isStopped = true) (m : Move) : p.move m = p := by
  cases m with
  | advance | markReturned | fault => exact if_pos hs

theorem moved_of_stopped (hs : p.isStopped = true) (moves : List Move) : p.moved moves = p := by
  induction moves with
  | nil => rfl
  | cons m ms ih =>
    rw [moved, List.foldl_cons, move_of_stopped hs]
    exact ih

/-- Where the moves lead from a running pointer. -/
theorem moved_running {i : Nat} (hi : i < count) (moves : List Move) :
    moved ⟨i, count, .running⟩ moves =
      if count ≤ i + advances moves then ⟨count, count, .completed⟩
      else ⟨i + advances moves, count, (moves.findSome? Move.ending).getD .running⟩ := by
  induction moves generalizing i with
  | nil => exact (if_neg (Nat.not_le.mpr hi)).symm
  | cons m ms ih =>
    cases m with
    | advance =>
      have hstep : moved ⟨i, count, .running⟩ (.advance :: ms) =
          moved ⟨i + 1, count, if count ≤ i + 1 then .completed else .running⟩ ms := rfl
      have hmore : advances (.advance :: ms) = advances ms + 1 := rfl
      rw [hstep, hmore, List.findSome?_cons_of_isNone rfl]
      by_cases hlast : count ≤ i + 1
      · have hend : i + 1 = count := Nat.le_antisymm hi hlast
        rw [if_pos hlast, moved_of_stopped rfl, if_pos (by omega), hend]
      · rw [if_neg hlast, ih (Nat.lt_of_not_le hlast), Nat.add_assoc, Nat.add_comm 1]
    | markReturned | fault =>
      -- The pointer stops where it is, and the moves that follow find it stopped.
      exact (moved_of_stopped rfl ms).trans (if_neg (Nat.not_le.mpr hi)).symm

/-- Where the moves lead from the start. -/
theorem moved_start (count : Nat) (moves : List Move) : (start count).moved moves =
    if count ≤ advances moves then ⟨count, count, .completed⟩
    else ⟨advances moves, count, (moves.findSome? Move.ending).getD .running⟩ := by
  cases count with
  | zero =>
    rw [if_pos (Nat.zero_le _)]
    exact moved_of_stopped rfl moves
  | succ n =>
    have hrun := moved_running (Nat.succ_pos n) moves
    rwa [Nat.zero_add] at hrun

end Pointer

section
variable {host : Host} {caller : Option Caller} {may : Command → Prop} {me : ObjectId} {t : Thread}
variable {s s' : State} {o : Outcome CommandError Unit} {es : List Entry}

theorem Trail.moves (h : Trail host caller may me t s o s' es) :
    ∃ ms, s'.pointer = s.pointer.moved ms := by
  rcases h.pointer with hp | hp
  · exact ⟨[], hp⟩
  · exact ⟨[.markReturned], hp⟩

/-- A thread moves its pointer move by move. -/
theorem Course.moves (h : Course host caller me t s o s' es) :
    ∃ ms, s'.pointer = s.pointer.moved ms := by
  induction h with
  | stop => exact ⟨[], rfl⟩
  | denied => exact ⟨[.fault], rfl⟩
  | fault _ ht =>
    obtain ⟨ms, hms⟩ := ht.moves
    exact ⟨ms ++ [.fault], by rw [Pointer.moved_append, ← hms]; rfl⟩
  | wait _ ht => exact ht.moves
  | next _ ht _ ih =>
    obtain ⟨ms, hms⟩ := ht.moves
    obtain ⟨more, hmore⟩ := ih
    refine ⟨ms ++ .advance :: more, ?_⟩
    rw [Pointer.moved_append, ← hms]
    exact hmore

end

/-- After any moves the pointer is within its list and complete exactly at its end, and when it has
stopped no move changes it. Where it is and how it stands is told by the advances in front and the
first other move: with as many advances as commands it is complete; with fewer it stands after
them, running if no other move came, and else as the first such move has left it. Running the
thread is moving on from there. -/
theorem moves_told_by_first_ending (count : Nat) (moves : List Pointer.Move) :
    ((Pointer.start count).moved moves).index ≤ count ∧
    (((Pointer.start count).moved moves).status = .completed ↔
      ((Pointer.start count).moved moves).index = count) ∧
    (((Pointer.start count).moved moves).status ≠ .completed →
      ((Pointer.start count).moved moves).index < count) ∧
    (((Pointer.start count).moved moves).isStopped = true →
      ∀ m, ((Pointer.start count).moved moves).move m = (Pointer.start count).moved moves) ∧
    (Pointer.start count).moved moves =
      (if count ≤ Pointer.advances moves then ⟨count, count, .completed⟩
      else ⟨Pointer.advances moves, count,
        (moves.findSome? Pointer.Move.ending).getD .running⟩) ∧
    (∀ (host : Host) (caller : Option Caller) (cs : List Command) (frame : Frame) (s : State),
      s.pointer = (Pointer.start count).moved moves → ∃ more,
        (runCommands host caller cs frame s).state.pointer =
          (Pointer.start count).moved (moves ++ more)) := by
  have hw := (Pointer.within_start count).moved moves
  refine ⟨hw.index_le, hw.completed_iff, hw.index_lt, Pointer.move_of_stopped,
    Pointer.moved_start count moves, ?_⟩
  intro host caller cs frame s hs
  obtain ⟨more, hmore⟩ :=
    (runCommands_course host caller frame.me frame.thread cs frame.held s).moves
  refine ⟨more, ?_⟩
  rw [Pointer.moved_append, ← hs]
  exact hmore

/-- Two of three commands were passed when the pointer was faulted; what came later did nothing. -/
theorem third_command_faulted :
    (Pointer.start 3).moved [.advance, .advance, .fault, .advance, .markReturned] =
      ⟨2, 3, .faulted⟩ ∧
    ((Pointer.start 3).moved [.advance, .advance, .fault, .advance, .markReturned]).index < 3 ∧
    ((Pointer.start 3).moved [.advance, .advance, .fault, .advance, .markReturned]).move .advance =
      (Pointer.start 3).moved [.advance, .advance, .fault, .advance, .markReturned] := by
  obtain ⟨_, _, hlt, hstay, hend, _⟩ := moves_told_by_first_ending 3
    [.advance, .advance, .fault, .advance, .markReturned]
  exact ⟨hend, hlt (by decide), hstay (by decide) .advance⟩

end GuardedScript
