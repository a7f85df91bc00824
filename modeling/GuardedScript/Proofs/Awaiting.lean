import GuardedScript.Proofs.InputOrder

/-!
Calls that have not ended. An effect that stops because it waits may be in the middle of a call.
One after the other, inputs come to a stand with such a call, so that its thread does nothing more
until the call ends. Side by side, the inputs after it go on, and they run on the same thread.
-/

namespace GuardedScript

namespace Effect

/-- The effect stops in the state `u` and waits for a call that it began in the state `k`, when the
inputs of the call were there. -/
inductive Awaits (caller : Option Caller) :
    {α : Type} → Effect α → Frame → State → State → State → Prop where
  | call {script inputs frame} {k : State}
      (hw : (call caller script inputs frame k).outcome = .waiting) :
      Awaits caller (call caller script inputs) frame k k (call caller script inputs frame k).state
  | first {α β} {x : Effect α} {f : α → Effect β} {frame s k u} (hx : Awaits caller x frame s k u) :
      Awaits caller (x >>= f) frame s k u
  | next {α β} {x : Effect α} {f : α → Effect β} {frame s a k u}
      (ho : (x frame s).outcome = .done a) (hf : Awaits caller (f a) frame (x frame s).state k u) :
      Awaits caller (x >>= f) frame s k u
  | holding {α} {x : Effect α} {held frame s k u}
      (hx : Awaits caller x { frame with held := held ++ frame.held } s k u) :
      Awaits caller (x.holding held) frame s k u
  | body {x y frame s k u} (hx : Awaits caller x frame s k u) :
      Awaits caller (attempt x y) frame s k u
  | handler {x y frame s e k u} (ho : (x frame s).outcome = .failed e)
      (he : e.isCatchable = true)
      (hy : Awaits caller (y.holding (e.cause.toList.map .object)) frame (x frame s).state k u) :
      Awaits caller (attempt x y) frame s k u
  -- the inputs beside the one that waits run before all of them stop
  | beside {x xs start} {frame : Frame} {s : State} {k u}
      (hp : frame.thread.context.config.parallelInputs = true)
      (hx : Awaits caller x frame { s with now := start } k u) :
      Awaits caller (inParallelFrom start (x :: xs)) frame s k
        (inParallelFrom start (x :: xs) frame s).state
  | later {x xs start frame} {s : State} {k u}
      (hxs : Awaits caller (inParallelFrom start xs)
        { frame with held := leftovers (x frame { s with now := start }).outcome ++ frame.held }
        { (x frame { s with now := start }).state with
          now := max s.now (x frame { s with now := start }).state.now } k u) :
      Awaits caller (inParallelFrom start (x :: xs)) frame s k u
  | parallel {xs} {frame : Frame} {s : State} {k u}
      (hp : frame.thread.context.config.parallelInputs = true)
      (hx : Awaits caller (inParallelFrom s.now xs) frame s k u) :
      Awaits caller (gather xs) frame s k u
  | sequence {xs} {frame : Frame} {s k u}
      (hp : frame.thread.context.config.parallelInputs = false)
      (hx : Awaits caller (inSequence xs) frame s k u) :
      Awaits caller (gather xs) frame s k u

variable {caller : Option Caller} {α : Type} {x : Effect α} {frame : Frame} {s k u : State}

/-- It is a call of the thread that waits. In sequence the thread stands where this call stands. -/
theorem Awaits.call_waiting (ha : x.Awaits caller frame s k u) : ∃ script inputs held,
    (Effect.call caller script inputs { frame with held := held } k).outcome = .waiting ∧
      (frame.thread.context.config.parallelInputs = false →
        u = (Effect.call caller script inputs { frame with held := held } k).state) := by
  induction ha with
  | @call script inputs frame k hw => exact ⟨script, inputs, frame.held, hw, fun _ => rfl⟩
  | first _ ih => exact ih
  | next _ _ ih => exact ih
  | holding _ ih => exact ih
  | body _ ih => exact ih
  | handler _ _ _ ih => exact ih
  | beside hp _ ih =>
    obtain ⟨script, inputs, held, hw, _⟩ := ih
    refine ⟨script, inputs, held, hw, fun hs => ?_⟩
    rw [hp] at hs
    cases hs
  | later _ ih => exact ih
  | parallel _ _ ih => exact ih
  | sequence _ _ ih => exact ih

/-- With a host that answers at once no call is waited for. -/
theorem not_awaits_of_prompt {host : Host} (hh : host.Prompt) (c : Context) :
    ¬ x.Awaits (c.caller host) frame s k u := by
  intro ha
  obtain ⟨script, inputs, held, hw, _⟩ := ha.call_waiting
  exact (call_prompt (Context.caller_prompt hh c) script inputs).ended _ _ hw

/-- Where no level is left there is no call to wait for. -/
theorem not_awaits_of_deepest : ¬ x.Awaits none frame s k u := by
  intro ha
  obtain ⟨script, inputs, held, hw, _⟩ := ha.call_waiting
  cases hw

end Effect

end GuardedScript
