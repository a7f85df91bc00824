import Mathlib.Data.List.Permutation
import GuardedScript.Proofs.Trail

/-!
The gate holds on whole runs. A thread checks only the commands of its own list; that nothing inside
them, and nothing in the calls they make, goes past the grant follows from the trails.
-/

namespace GuardedScript

/-- An event that a grant permits: commands and operations that it covers, threads that carry it. -/
def Event.Granted (grant : Capabilities) : Event → Prop
  | .started g => g = grant
  | .entered c => grant.Covers c.own
  | .invoked op => grant.Covers op.requires
  | _ => True

theorem Event.Told.granted {t : Thread} {ev : Event} (h : ev.Told t.Allows) :
    ev.Granted t.grant := by
  cases h with
  | entered hc => exact Command.covers_own hc
  | invoked hc ho => exact Command.covers_operation hc ho
  | _ => trivial

theorem Entry.Known.granted {caller : Option Caller} {t : Thread} {e : Entry}
    (hrun : ∀ run, caller = some run → ∀ call m, ∀ e ∈ (run call m).events,
      e.event.Granted call.grant)
    (h : e.Known caller t.Allows t) : e.event.Granted t.grant := by
  rcases h with ⟨_, h⟩ | ⟨run, call, m, hr, hg, _, he⟩
  · exact h.granted
  · rw [← hg]
    exact hrun run hr call m e he

/-- At every level, a call does only what its grant permits. -/
theorem callAt_granted (host : Host) (levels : Nat) (call : Call) (m : Moment) :
    ∀ e ∈ (callAt host levels call m).events, e.event.Granted call.grant := by
  refine callAt_induction host (P := fun call _ r => ∀ e ∈ r.events, e.event.Granted call.grant)
    ?_ levels call m
  intro caller hrun call m r hr
  have hs : call.started.event.Granted call.grant := rfl
  cases hr with
  | refused => simp
  | unbuilt => simpa using hs
  | ran hi hb hc =>
    obtain ⟨_, rfl⟩ := Thread.buildStack_ok hb
    refine List.forall_mem_cons.mpr ⟨hs, fun e he => ?_⟩
    rcases hc.known e he with h | ⟨ms, rfl⟩
    · exact h.granted hrun
    · trivial

/-- On every run, however it ends and however deep calls are nested: commands are entered only when
the grant covers what they declare, operations are invoked only when it covers what they require,
and every thread carries exactly that grant. -/
theorem gate_soundness (host : Host) (call : Call) (m : Moment) :
    (∀ depth c, ⟨depth, .entered c⟩ ∈ (Script.callIn host call m).events →
      ∀ n ∈ c.own.required.names, n ∈ call.grant.required.names) ∧
    (∀ depth op, ⟨depth, .invoked op⟩ ∈ (Script.callIn host call m).events →
      ∀ n ∈ op.requires.required.names, n ∈ call.grant.required.names) ∧
    (∀ depth g, ⟨depth, .started g⟩ ∈ (Script.callIn host call m).events → g = call.grant) := by
  have h : ∀ e ∈ (Script.callIn host call m).events, e.event.Granted call.grant :=
    callAt_granted host _ call m
  exact ⟨fun _ _ he => h _ he, fun _ _ he => h _ he, fun _ _ he => h _ he⟩

namespace Nested

/-! A script that calls another one, which asks the host for an operation. -/

def fetch : Operation := { name := "fetch", requires := .requiring [.named "network"] }

def heap : Heap := Sample.heap [.native {} fetch []]

def call : Call :=
  Sample.call {} (.requiring [.named "network", .named "clock"])
    [.script (.requiring [.named "clock"]) (.value {} ⟨1⟩) []]

end Nested

theorem gate_soundness_nested :
    ⟨1, .invoked Nested.fetch⟩ ∈ (Script.callIn Sample.host Nested.call ⟨Nested.heap, 0⟩).events ∧
    (∀ n ∈ Nested.fetch.requires.required.names, n ∈ Nested.call.grant.required.names) := by
  have hi : (Script.callIn Sample.host Nested.call ⟨Nested.heap, 0⟩).events[5]? =
      some ⟨1, .invoked Nested.fetch⟩ := by cbv
  have hm := List.mem_of_getElem? hi
  obtain ⟨_, hops, _⟩ := gate_soundness Sample.host Nested.call ⟨Nested.heap, 0⟩
  exact ⟨hm, hops 1 Nested.fetch hm⟩

end GuardedScript
