import Mathlib.Logic.ExistsUnique
import GuardedScript.Proofs.Declared
import GuardedScript.Proofs.ReturnSlot

/-!
How a thread goes through its commands. Within a command the pointer stays where it is, and at most
it is marked as returned, however deep in the command that happens; only between commands does it
move on. So a run is the effects of its first commands, one after the other, up to the first one
that is denied, fails or returns, and the pointer tells which one that was.
-/

namespace GuardedScript

namespace Outcome

variable {ε α : Type} {o : Outcome ε α}

theorem forget_eq_done : o.forget = .done () ↔ ∃ a, o = .done a := by
  cases o <;> simp

theorem forget_eq_failed {e : ε} : o.forget = .failed e ↔ o = .failed e := by
  cases o <;> simp

end Outcome

namespace Pointer

variable (p : Pointer)

theorem markReturned_markReturned : p.markReturned.markReturned = p.markReturned := by
  obtain ⟨index, count, status⟩ := p
  cases status <;> rfl

end Pointer

section
variable {host : Host} {caller : Option Caller} {may : Command → Prop} {me : ObjectId} {t : Thread}
variable {s s' : State} {o : Outcome CommandError Unit} {es : List Entry}

theorem Effect.call_keeps_pointer (script : Script) (inputs : List ObjectId) (frame : Frame) :
    (Effect.call caller script inputs frame s).state.pointer = s.pointer := by
  cases caller <;> rfl

/-- Within a command the pointer stays, or is marked as returned. -/
theorem Trail.pointer (h : Trail host caller may me t s o s' es) :
    s'.pointer = s.pointer ∨ s'.pointer = s.pointer.markReturned := by
  have join : ∀ {a b c : Pointer}, b = a ∨ b = a.markReturned → c = b ∨ c = b.markReturned →
      c = a ∨ c = a.markReturned := by
    rintro a b c (rfl | rfl) (rfl | rfl)
    · exact .inl rfl
    · exact .inr rfl
    · exact .inr rfl
    · exact .inr a.markReturned_markReturned
  induction h with
  | still | slip | enter | throw | set | add => exact .inl rfl
  | giveBack => exact .inr rfl
  | perform s held args hc ho hr =>
    subst hr
    obtain ⟨now, hstate⟩ := Effect.perform_state host _ args ⟨me, t, held⟩ s
    rw [hstate]
    split
    · exact .inr rfl
    · exact .inl rfl
  | call s held script inputs hr =>
    subst hr
    exact .inl (Effect.call_keeps_pointer script inputs ⟨me, t, held⟩)
  | seq _ _ ih₁ ih₂ => exact join ih₁ ih₂
  | caught _ _ _ ih₁ ih₂ => exact join ih₁ ih₂
  | beside _ _ _ _ _ ih₁ ih₂ => exact join ih₁ ih₂
  | inputsFailed _ ih => exact ih

end

theorem exec_pointer (host : Host) (caller : Option Caller) (c : Command) (frame : Frame)
    (s : State) : (exec host caller c frame s).state.pointer = s.pointer ∨
      (exec host caller c frame s).state.pointer = s.pointer.markReturned := by
  obtain ⟨me, t, held⟩ := frame
  have hx : (exec host caller c).Follows host caller (fun _ => True) me t :=
    exec_follows (fun _ _ _ _ => trivial) c trivial
  exact (hx held s _ rfl).pointer

/-- How far a thread has come, and what has happened until then. -/
structure Progress where
  moment : Moment
  events : List Entry

namespace Frame

section
variable (host : Host) (caller : Option Caller) (frame : Frame)

/-- What comes of a command when it starts at a moment as number `i` of its thread. -/
def reply (i : Nat) (c : Command) (m : Moment) : Reply CommandError State (Option ObjectId) :=
  exec host caller c frame ⟨m, ⟨i, frame.thread.commands.length, .running⟩⟩

/-- The effect of one more command. -/
def play (p : Progress) (c : Command × Nat) : Progress :=
  let r := frame.reply host caller c.2 c.1 p.moment
  ⟨r.state.toMoment, p.events ++ r.events⟩

/-- The effects of the first `n` commands, each started where the one before it ended. -/
def after (m : Moment) (n : Nat) : Progress :=
  (frame.thread.commands.take n).zipIdx.foldl (frame.play host caller) ⟨m, []⟩

/-- What comes of command `n` after those before it. -/
def nth (m : Moment) (n : Nat) (c : Command) : Reply CommandError State (Option ObjectId) :=
  frame.reply host caller n c (frame.after host caller m n).moment

variable (m : Moment)

/-- The thread comes to command `n`, which its grant covers. -/
structure Admits (n : Nat) (c : Command) : Prop where
  command : frame.thread.commands[n]? = some c
  allowed : frame.thread.Allows c

/-- The thread goes on after command `n`: it was allowed and is done, and has not returned. -/
def GoesOn (n : Nat) : Prop := ∃ c v, frame.Admits n c ∧
  (frame.nth host caller m n c).outcome = .done v ∧
    (frame.nth host caller m n c).state.pointer.status = .running

/-- The ways a run can end at command `n`. -/
inductive Ends (n : Nat) : Reply CommandError State Unit → Prop where
  | completed (hn : n = frame.thread.commands.length) :
      Ends n ⟨.done (), ⟨(frame.after host caller m n).moment, ⟨n, n, .completed⟩⟩,
        (frame.after host caller m n).events⟩
  | denied {c} (hc : frame.thread.commands[n]? = some c) (hd : ¬ frame.thread.Allows c) :
      Ends n ⟨.failed (.capability (.denied frame.thread.name
          (frame.thread.grant.missing c.required))),
        ⟨(frame.after host caller m n).moment, ⟨n, frame.thread.commands.length, .faulted⟩⟩,
        (frame.after host caller m n).events ++
          [⟨frame.thread.context.depth, .denied (frame.thread.grant.missing c.required)⟩]⟩
  | failed {c e status} (hc : frame.Admits n c)
      (ho : (frame.nth host caller m n c).outcome = .failed e)
      (hs : status = if (frame.nth host caller m n c).state.pointer.status = .returned
        then .returned else .faulted) :
      Ends n ⟨.failed e, ⟨(frame.after host caller m (n + 1)).moment,
          ⟨n, frame.thread.commands.length, status⟩⟩,
        (frame.after host caller m (n + 1)).events⟩
  | returned {c v} (hc : frame.Admits n c)
      (ho : (frame.nth host caller m n c).outcome = .done v)
      (hs : (frame.nth host caller m n c).state.pointer.status = .returned) :
      Ends n ⟨.done (), ⟨(frame.after host caller m (n + 1)).moment,
          ⟨n, frame.thread.commands.length, .returned⟩⟩,
        (frame.after host caller m (n + 1)).events⟩
  | waiting {c} (hc : frame.Admits n c)
      (ho : (frame.nth host caller m n c).outcome = .waiting) :
      Ends n ⟨.waiting, ⟨(frame.after host caller m (n + 1)).moment,
          ⟨n, frame.thread.commands.length, (frame.nth host caller m n c).state.pointer.status⟩⟩,
        (frame.after host caller m (n + 1)).events⟩

end

variable {host : Host} {caller : Option Caller} {frame : Frame} {m : Moment} {n k : Nat}
variable {c : Command} {r : Reply CommandError State Unit}

theorem after_succ (host : Host) (caller : Option Caller) (m : Moment)
    (hc : frame.thread.commands[n]? = some c) : frame.after host caller m (n + 1) =
      ⟨(frame.nth host caller m n c).state.toMoment,
        (frame.after host caller m n).events ++ (frame.nth host caller m n c).events⟩ := by
  have hlt : n < frame.thread.commands.length := (List.getElem?_eq_some_iff.mp hc).1
  have hlen : (frame.thread.commands.take n).length = n := by
    rw [List.length_take]
    omega
  rw [after, List.take_add_one, hc, List.zipIdx_append, List.foldl_append, hlen]
  simp only [Option.toList_some, List.zipIdx_singleton, List.foldl_cons, List.foldl_nil,
    Nat.zero_add]
  rfl

theorem nth_pointer (host : Host) (caller : Option Caller) (frame : Frame) (m : Moment) (n : Nat)
    (c : Command) : (frame.nth host caller m n c).state.pointer =
      ⟨n, frame.thread.commands.length, (frame.nth host caller m n c).state.pointer.status⟩ ∧
    ((frame.nth host caller m n c).state.pointer.status = .running ∨
      (frame.nth host caller m n c).state.pointer.status = .returned) := by
  rcases exec_pointer host caller c frame ⟨(frame.after host caller m n).moment,
    ⟨n, frame.thread.commands.length, .running⟩⟩ with hp | hp
  · have hp : (frame.nth host caller m n c).state.pointer = _ := hp
    rw [hp]
    exact ⟨rfl, .inl rfl⟩
  · have hp : (frame.nth host caller m n c).state.pointer = _ := hp
    rw [hp]
    exact ⟨rfl, .inr rfl⟩

theorem Ends.not_goesOn (he : frame.Ends host caller m n r) : ¬ frame.GoesOn host caller m n := by
  rintro ⟨c', v', ⟨hc', ha'⟩, ho', hs'⟩
  cases he with
  | completed hn =>
    rw [hn, List.getElem?_length] at hc'
    cases hc'
  | denied hc hd =>
    rw [hc] at hc'
    cases hc'
    exact hd ha'
  | failed hc ho _ =>
    rw [hc.command] at hc'
    cases hc'
    rw [ho] at ho'
    cases ho'
  | returned hc _ hs =>
    rw [hc.command] at hc'
    cases hc'
    rw [hs] at hs'
    cases hs'
  | waiting hc ho =>
    rw [hc.command] at hc'
    cases hc'
    rw [ho] at ho'
    cases ho'

/-- There is one place at which a thread first does not go on. -/
theorem stop_unique (hn : ∀ i < n, frame.GoesOn host caller m i)
    (hsn : ¬ frame.GoesOn host caller m n) (hk : ∀ i < k, frame.GoesOn host caller m i)
    (hsk : ¬ frame.GoesOn host caller m k) : n = k := by
  rcases Nat.lt_trichotomy n k with hlt | heq | hgt
  · exact absurd (hk n hlt) hsn
  · exact heq
  · exact absurd (hn k hgt) hsk

/-- The pointer of a thread that has gone through its first `n` commands. -/
def pointerAt (frame : Frame) (n : Nat) : Pointer :=
  ⟨n, frame.thread.commands.length,
    if frame.thread.commands.length ≤ n then .completed else .running⟩

theorem pointerAt_zero (frame : Frame) :
    frame.pointerAt 0 = .start frame.thread.commands.length := by
  simp [pointerAt, Pointer.start]

theorem pointerAt_length (hn : n = frame.thread.commands.length) :
    frame.pointerAt n = ⟨n, n, .completed⟩ := by
  simp [pointerAt, hn]

theorem pointerAt_of_lt (hn : n < frame.thread.commands.length) :
    frame.pointerAt n = ⟨n, frame.thread.commands.length, .running⟩ := by
  simp [pointerAt, hn]

theorem nth_fault (host : Host) (caller : Option Caller) (frame : Frame) (m : Moment) (n : Nat)
    (c : Command) : (frame.nth host caller m n c).state.pointer.fault =
      ⟨n, frame.thread.commands.length,
        if (frame.nth host caller m n c).state.pointer.status = .returned
          then .returned else .faulted⟩ := by
  obtain ⟨hp, hs⟩ := frame.nth_pointer host caller m n c
  rw [hp]
  rcases hs with hs | hs <;> rw [hs] <;> rfl

theorem nth_advance (hs : (frame.nth host caller m n c).state.pointer.status = .running) :
    (frame.nth host caller m n c).state.pointer.advance = frame.pointerAt (n + 1) := by
  rw [(frame.nth_pointer host caller m n c).1, hs]
  rfl

theorem nth_stays (hs : (frame.nth host caller m n c).state.pointer.status = .returned) :
    (frame.nth host caller m n c).state.pointer.advance =
      ⟨n, frame.thread.commands.length, .returned⟩ := by
  rw [(frame.nth_pointer host caller m n c).1, hs]
  rfl

end Frame

theorem Thread.Allows.check {t : Thread} {c : Command} (ha : t.Allows c) :
    t.grant.check c.required t.name = .ok () :=
  Capabilities.check_eq_ok.mpr ha

theorem runCommands_stopped (host : Host) (caller : Option Caller) (cs : List Command)
    (frame : Frame) {s : State} (hs : s.pointer.isStopped = true) :
    runCommands host caller cs frame s = ⟨.done (), s, []⟩ := by
  cases cs with
  | nil => rfl
  | cons c cs => simp only [runCommands, hs, if_true]

section
variable (host : Host) (caller : Option Caller) {frame : Frame} {m : Moment} {n : Nat}
variable {c : Command} (rest : List Command)

theorem Frame.step_denied (hd : ¬ frame.thread.Allows c) :
    runCommands host caller (c :: rest) frame ⟨m, ⟨n, frame.thread.commands.length, .running⟩⟩ =
      ⟨.failed (.capability (.denied frame.thread.name (frame.thread.grant.missing c.required))),
        ⟨m, ⟨n, frame.thread.commands.length, .faulted⟩⟩,
        [⟨frame.thread.context.depth, .denied (frame.thread.grant.missing c.required)⟩]⟩ := by
  have hcheck : frame.thread.grant.check c.required frame.thread.name =
      .error (.denied frame.thread.name (frame.thread.grant.missing c.required)) :=
    Capabilities.check_eq_error.mpr ⟨hd, rfl⟩
  simp only [runCommands, hcheck]
  rfl

theorem Frame.step_failed {e : CommandError} (ha : frame.thread.Allows c)
    (ho : (frame.reply host caller n c m).outcome = .failed e) :
    runCommands host caller (c :: rest) frame ⟨m, ⟨n, frame.thread.commands.length, .running⟩⟩ =
      let r := frame.reply host caller n c m
      ⟨.failed e, ⟨r.state.toMoment, r.state.pointer.fault⟩, r.events⟩ := by
  rw [Frame.reply] at ho
  simp only [runCommands, ha.check, ho]
  rfl

theorem Frame.step_waiting (ha : frame.thread.Allows c)
    (ho : (frame.reply host caller n c m).outcome = .waiting) :
    runCommands host caller (c :: rest) frame ⟨m, ⟨n, frame.thread.commands.length, .running⟩⟩ =
      let r := frame.reply host caller n c m
      ⟨.waiting, r.state, r.events⟩ := by
  rw [Frame.reply] at ho
  simp only [runCommands, ha.check, ho]
  rfl

theorem Frame.step_done {v : Option ObjectId} {q : Reply CommandError State Unit}
    (ha : frame.thread.Allows c) (ho : (frame.reply host caller n c m).outcome = .done v)
    (hq : runCommands host caller rest frame ⟨(frame.reply host caller n c m).state.toMoment,
      (frame.reply host caller n c m).state.pointer.advance⟩ = q) :
    runCommands host caller (c :: rest) frame ⟨m, ⟨n, frame.thread.commands.length, .running⟩⟩ =
      ⟨q.outcome, q.state, (frame.reply host caller n c m).events ++ q.events⟩ := by
  subst hq
  rw [Frame.reply] at ho
  simp only [runCommands, ha.check, ho]
  rfl

variable {rest}

/-- The run of the commands that are left when the first `n` have been gone through. The induction
is on those commands; what has happened until then is in `after`. -/
theorem runCommands_ends (hrest : frame.thread.commands.drop n = rest)
    (hn : n ≤ frame.thread.commands.length) (hpass : ∀ i < n, frame.GoesOn host caller m i)
    {r : Reply CommandError State Unit}
    (hr : runCommands host caller rest frame
      ⟨(frame.after host caller m n).moment, frame.pointerAt n⟩ = r) :
    ∃ k, (∀ i < k, frame.GoesOn host caller m i) ∧ frame.Ends host caller m k
      ⟨r.outcome, r.state, (frame.after host caller m n).events ++ r.events⟩ := by
  induction rest generalizing n r with
  | nil =>
    have hlen : n = frame.thread.commands.length :=
      Nat.le_antisymm hn (List.drop_eq_nil_iff.mp hrest)
    refine ⟨n, hpass, ?_⟩
    subst hr
    rw [Frame.pointerAt_length hlen]
    simpa only [runCommands, Effect.pure, List.append_nil] using .completed hlen
  | cons c rest ih =>
    have hc : frame.thread.commands[n]? = some c := by
      rw [← List.head?_drop, hrest, List.head?_cons]
    have hlt : n < frame.thread.commands.length := (List.getElem?_eq_some_iff.mp hc).1
    have hsucc := frame.after_succ host caller m hc
    have hrest' : frame.thread.commands.drop (n + 1) = rest := by
      rw [← List.tail_drop, hrest, List.tail_cons]
    rw [Frame.pointerAt_of_lt hlt] at hr
    by_cases ha : frame.thread.Allows c
    · cases ho : (frame.nth host caller m n c).outcome with
      | failed e =>
        have hend := Frame.Ends.failed (m := m) ⟨hc, ha⟩ ho rfl
        rw [hsucc, ← Frame.nth_fault] at hend
        rw [Frame.step_failed host caller rest ha ho] at hr
        subst hr
        exact ⟨n, hpass, hend⟩
      | waiting =>
        have hend := Frame.Ends.waiting (m := m) ⟨hc, ha⟩ ho
        rw [hsucc, ← (frame.nth_pointer host caller m n c).1] at hend
        rw [Frame.step_waiting host caller rest ha ho] at hr
        subst hr
        exact ⟨n, hpass, hend⟩
      | done v =>
        -- the loop looks at the pointer only here, whatever happened to it within the command
        rcases (frame.nth_pointer host caller m n c).2 with hs | hs
        · have hnext : ∀ i < n + 1, frame.GoesOn host caller m i :=
            Nat.forall_lt_succ_right.mpr ⟨hpass, c, v, ⟨hc, ha⟩, ho, hs⟩
          obtain ⟨k, hk, hend⟩ := ih hrest' hlt hnext rfl
          rw [hsucc, ← Frame.nth_advance hs, List.append_assoc] at hend
          rw [Frame.step_done host caller rest ha ho rfl] at hr
          subst hr
          exact ⟨k, hk, hend⟩
        · have hend := Frame.Ends.returned (m := m) ⟨hc, ha⟩ ho hs
          have hstop : runCommands host caller rest frame
              ⟨(frame.nth host caller m n c).state.toMoment,
                (frame.nth host caller m n c).state.pointer.advance⟩ =
              ⟨.done (), ⟨(frame.nth host caller m n c).state.toMoment,
                ⟨n, frame.thread.commands.length, .returned⟩⟩, []⟩ := by
            rw [Frame.nth_stays hs]
            exact runCommands_stopped host caller rest frame rfl
          rw [Frame.step_done host caller rest ha ho hstop] at hr
          subst hr
          rw [hsucc] at hend
          simpa only [List.append_nil] using ⟨n, hpass, hend⟩
    · rw [Frame.step_denied host caller rest ha] at hr
      subst hr
      exact ⟨n, hpass, .denied hc ha⟩

end

section
variable (host : Host) (caller : Option Caller) (frame : Frame) (m : Moment)

/-- The whole run of a thread whose stack has just been built. -/
def Frame.run : Reply CommandError State Unit :=
  runCommands host caller frame.thread.commands frame ⟨m, .start frame.thread.commands.length⟩

theorem Frame.run_ends : ∃ n, (∀ i < n, frame.GoesOn host caller m i) ∧
    frame.Ends host caller m n (frame.run host caller m) := by
  rw [Frame.run, ← frame.pointerAt_zero]
  exact runCommands_ends host caller List.drop_zero (Nat.zero_le _)
    (fun i hi => absurd hi (Nat.not_lt_zero i)) rfl

theorem Frame.nth_events (n : Nat) (c : Command) : ∃ es,
    (frame.nth host caller m n c).events = ⟨frame.thread.context.depth, .entered c⟩ :: es := by
  obtain ⟨x, hx⟩ := exec_eq_entering host caller c
  rw [Frame.nth, Frame.reply, hx]
  exact ⟨_, rfl⟩

/-- A run goes through the commands in order, each started where the one before it ended, up to the
one place where it ends: past the last command, before one that is denied, or right after one that
fails, returns or waits. Each command that runs tells of itself first. -/
theorem run_is_prefix :
    (∃! n, (∀ i < n, frame.GoesOn host caller m i) ∧
      frame.Ends host caller m n (frame.run host caller m)) ∧
    ∀ n c, ∃ es, (frame.nth host caller m n c).events =
      ⟨frame.thread.context.depth, .entered c⟩ :: es := by
  obtain ⟨n, hn, he⟩ := frame.run_ends host caller m
  refine ⟨⟨n, ⟨hn, he⟩, ?_⟩, frame.nth_events host caller m⟩
  rintro k ⟨hk, hek⟩
  exact Frame.stop_unique hk hek.not_goesOn hn he.not_goesOn

/-- The thread comes to command `n`, which returns from it. -/
structure Frame.ReturnsAt (n : Nat) (c : Command) : Prop where
  before : ∀ i < n, frame.GoesOn host caller m i
  admitted : frame.Admits n c
  returned : (frame.nth host caller m n c).state.pointer.status = .returned

end

namespace Frame

variable {host : Host} {caller : Option Caller} {frame : Frame} {m : Moment} {n k : Nat}
variable {c : Command} {r : Reply CommandError State Unit}

/-- A thread that returns ends the way the command ends that returns from it. -/
theorem ReturnsAt.outcome_eq (hr : frame.ReturnsAt host caller m k c)
    (hn : ∀ i < n, frame.GoesOn host caller m i) (he : frame.Ends host caller m n r) :
    r.outcome = (frame.nth host caller m k c).outcome.forget := by
  have hstop : ¬ frame.GoesOn host caller m k := by
    rintro ⟨c', v, hc', _, hs⟩
    obtain rfl : c = c' := Option.some.inj (hr.admitted.command.symm.trans hc'.command)
    cases hr.returned.symm.trans hs
  obtain rfl : k = n := stop_unique hr.before hstop hn he.not_goesOn
  have same : ∀ {c'}, frame.thread.commands[k]? = some c' → c' = c := fun hc' =>
    Option.some.inj (hc'.symm.trans hr.admitted.command)
  cases he with
  | completed hk =>
    have hlt := (List.getElem?_eq_some_iff.mp hr.admitted.command).1
    omega
  | denied hc hd =>
    obtain rfl := same hc
    exact absurd hr.admitted.allowed hd
  | failed hc ho _ =>
    obtain rfl := same hc.command
    rw [ho]
    rfl
  | returned hc ho _ =>
    obtain rfl := same hc.command
    rw [ho]
    rfl
  | waiting hc ho =>
    obtain rfl := same hc.command
    rw [ho]
    rfl

/-- The outcome goes with the status, except for a thread that returned. -/
theorem Ends.by_status (hn : ∀ i < n, frame.GoesOn host caller m i)
    (he : frame.Ends host caller m n r) :
    (r.state.pointer.status = .completed ∧ r.outcome = .done ()) ∨
    (r.state.pointer.status = .faulted ∧ ∃ e, r.outcome = .failed e) ∨
    (r.state.pointer.status = .running ∧ r.outcome = .waiting) ∨
    (r.state.pointer.status = .returned ∧ ∃ c, frame.ReturnsAt host caller m n c) := by
  cases he with
  | completed => exact .inl ⟨rfl, rfl⟩
  | denied => exact .inr (.inl ⟨rfl, _, rfl⟩)
  | @failed c e status hc ho hs =>
    by_cases h : (frame.nth host caller m n c).state.pointer.status = .returned
    · rw [if_pos h] at hs
      exact .inr (.inr (.inr ⟨hs, c, hn, hc, h⟩))
    · rw [if_neg h] at hs
      exact .inr (.inl ⟨hs, e, rfl⟩)
  | @returned c _ hc _ hs => exact .inr (.inr (.inr ⟨rfl, c, hn, hc, hs⟩))
  | @waiting c hc ho =>
    rcases (frame.nth_pointer host caller m n c).2 with hs | hs
    · exact .inr (.inr (.inl ⟨hs, rfl⟩))
    · exact .inr (.inr (.inr ⟨hs, c, hn, hc, hs⟩))

end Frame

section
variable (host : Host) (caller : Option Caller) (frame : Frame) (m : Moment)

/-- A run has failed exactly if its thread is faulted, or has returned by a command that failed
afterwards; it is done exactly if its thread is completed, or has returned by a command that is
done. -/
theorem status_tells_end :
    ((∃ e, (frame.run host caller m).outcome = .failed e) ↔
      (frame.run host caller m).state.pointer.status = .faulted ∨
      (frame.run host caller m).state.pointer.status = .returned ∧
        ∃ n c e, frame.ReturnsAt host caller m n c ∧
          (frame.nth host caller m n c).outcome = .failed e) ∧
    ((frame.run host caller m).outcome = .done () ↔
      (frame.run host caller m).state.pointer.status = .completed ∨
      (frame.run host caller m).state.pointer.status = .returned ∧
        ∃ n c v, frame.ReturnsAt host caller m n c ∧
          (frame.nth host caller m n c).outcome = .done v) := by
  obtain ⟨n, hn, he⟩ := frame.run_ends host caller m
  have hout {k c} (hr : frame.ReturnsAt host caller m k c) :
      (frame.run host caller m).outcome = (frame.nth host caller m k c).outcome.forget :=
    hr.outcome_eq hn he
  rcases he.by_status hn with ⟨hs, ho⟩ | ⟨hs, e, ho⟩ | ⟨hs, ho⟩ | ⟨hs, c, hr⟩
  · simp [hs, ho]
  · simp [hs, ho]
  · simp [hs, ho]
  · -- The thread returned: the outcome is that of the command by which it did.
    have hfailed : (∃ e, (frame.run host caller m).outcome = .failed e) ↔ ∃ n c e,
        frame.ReturnsAt host caller m n c ∧
          (frame.nth host caller m n c).outcome = .failed e := by
      constructor
      · rintro ⟨e, hf⟩
        exact ⟨n, c, e, hr, Outcome.forget_eq_failed.mp ((hout hr).symm.trans hf)⟩
      · rintro ⟨k, c', e, hr', hf⟩
        exact ⟨e, (hout hr').trans (Outcome.forget_eq_failed.mpr hf)⟩
    have hdone : (frame.run host caller m).outcome = .done () ↔ ∃ n c v,
        frame.ReturnsAt host caller m n c ∧
          (frame.nth host caller m n c).outcome = .done v := by
      constructor
      · intro hd
        obtain ⟨v, hv⟩ := Outcome.forget_eq_done.mp ((hout hr).symm.trans hd)
        exact ⟨n, c, v, hr, hv⟩
      · rintro ⟨k, c', v, hr', hv⟩
        exact (hout hr').trans (Outcome.forget_eq_done.mpr ⟨v, hv⟩)
    simp [hs, hfailed, hdone]

end

namespace Sample

/-- Returns, and then throws what the return gives. -/
def late : Thread :=
  { name := "late", grant := {}, commands := [.throw {} (some (.ret {} none))], context := {},
    stack := (heap []).newStack.2 }

def lateHeap : Heap := (late.buildStack (heap []).newStack.1 ⟨0⟩ (.linked [])).2

def lateFrame : Frame := ⟨⟨0⟩, { late with scratch := some (.loose 0) }, []⟩

def lateRun : Reply CommandError State Unit :=
  lateFrame.run host (late.context.caller host) ⟨lateHeap, 0⟩

end Sample

/-- A thread that throws after it has returned has failed, but is not faulted. -/
theorem throw_after_return :
    Sample.late.buildStack (Sample.heap []).newStack.1 ⟨0⟩ (.linked []) =
      (.ok Sample.lateFrame.thread, Sample.lateHeap) ∧
    ¬ ((∃ e, Sample.lateRun.outcome = .failed e) ↔
      Sample.lateRun.state.pointer.status = .faulted) := by
  have hfailed : Sample.lateRun.outcome = .failed (.thrown "late" none) := by cbv
  have hreturned : Sample.lateRun.state.pointer.status = .returned := by cbv
  refine ⟨by cbv, fun h => ?_⟩
  have hfaulted := h.mp ⟨_, hfailed⟩
  rw [hreturned] at hfaulted
  cases hfaulted

end GuardedScript
