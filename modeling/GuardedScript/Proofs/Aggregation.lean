import GuardedScript.Proofs.CallDepth
import GuardedScript.Proofs.Denial
import GuardedScript.Proofs.Merging
import GuardedScript.Proofs.ReturnSlot

/-!
What a tree of commands requires as a whole. Requirements are merged at every command of the tree,
from the leaves up; nothing is lost on the way and nothing is added, so the whole requires what its
nodes require one by one. A grant that covers the whole of a script therefore passes the gate at
each of its commands, and a thread with such a grant is stopped by no denial of its own.
-/

namespace GuardedScript

namespace Command

mutual

/-- All commands of a tree, each before its parts. -/
def nodes : Command → List Command
  | c@(.this _) => [c]
  | c@(.value _ _) => [c]
  | c@(.get _ _) => [c]
  | c@(.add _ _ _) => [c]
  | c@(.getOf _ target _) => c :: nodes target
  | c@(.set _ _ operand) => c :: nodes operand
  | c@(.ret _ operand) => c :: nodesOption operand
  | c@(.throw _ operand) => c :: nodesOption operand
  | c@(.script _ target inputs) => c :: (nodes target ++ nodesList inputs)
  | c@(.attempt _ body handler) => c :: (nodes body ++ nodes handler)
  | c@(.native _ _ args) => c :: nodesList args

def nodesOption : Option Command → List Command
  | none => []
  | some c => nodes c

def nodesList : List Command → List Command
  | [] => []
  | c :: rest => nodes c ++ nodesList rest

end

theorem nodesOption_eq (o : Option Command) : nodesOption o = o.toList.flatMap nodes := by
  cases o <;> simp [nodesOption]

theorem nodesList_eq (cs : List Command) : nodesList cs = cs.flatMap nodes := by
  induction cs with
  | nil => rfl
  | cons c cs ih => rw [nodesList, ih, List.flatMap_cons]

theorem nodes_eq (c : Command) : c.nodes = c :: c.parts.flatMap nodes := by
  cases c <;> simp [nodes, parts, nodesOption_eq, nodesList_eq]

mutual

/-- What holds of a command if it holds of its parts holds of every command. -/
theorem induction_on_parts {P : Command → Prop} (step : ∀ c, (∀ d ∈ c.parts, P d) → P c) :
    ∀ c, P c
  | .this _ | .value _ _ | .get _ _ | .add _ _ _ => step _ fun _ hd => nomatch hd
  | .getOf _ target _ => step _ (List.forall_mem_singleton.mpr (induction_on_parts step target))
  | .set _ _ operand => step _ (List.forall_mem_singleton.mpr (induction_on_parts step operand))
  | .ret _ operand | .throw _ operand => step _ (induction_on_option step operand)
  | .script _ target inputs =>
    step _ (List.forall_mem_cons.mpr
      ⟨induction_on_parts step target, induction_on_list step inputs⟩)
  | .attempt _ body handler =>
    step _ (List.forall_mem_cons.mpr ⟨induction_on_parts step body,
      List.forall_mem_singleton.mpr (induction_on_parts step handler)⟩)
  | .native _ _ args => step _ (induction_on_list step args)

theorem induction_on_option {P : Command → Prop} (step : ∀ c, (∀ d ∈ c.parts, P d) → P c) :
    ∀ o : Option Command, ∀ d ∈ o.toList, P d
  | none => fun _ hd => nomatch hd
  | some c => List.forall_mem_singleton.mpr (induction_on_parts step c)

theorem induction_on_list {P : Command → Prop} (step : ∀ c, (∀ d ∈ c.parts, P d) → P c) :
    ∀ cs : List Command, ∀ d ∈ cs, P d
  | [] => fun _ hd => nomatch hd
  | c :: cs => List.forall_mem_cons.mpr ⟨induction_on_parts step c, induction_on_list step cs⟩

end

/-- The name is required at the command itself, by its own requirement or by its operation. -/
def Names (c : Command) (n : String) : Prop :=
  n ∈ c.own.required.names ∨ ∃ op ∈ c.operation?, n ∈ op.requires.required.names

/-- The induction is on the tree: one merge joins what a command names itself with what its parts
require. -/
theorem mem_required_nodes (c : Command) {n : String} :
    n ∈ c.required.required.names ↔ ∃ d ∈ c.nodes, d.Names n := by
  induction c using induction_on_parts with
  | step c ih =>
    have hparts : (∃ d ∈ c.parts, n ∈ d.required.required.names) ↔
        ∃ e ∈ c.parts.flatMap nodes, e.Names n := by
      simp only [List.mem_flatMap]
      constructor
      · rintro ⟨d, hd, hn⟩
        obtain ⟨e, he, hn⟩ := (ih d hd).mp hn
        exact ⟨e, ⟨d, hd, he⟩, hn⟩
      · rintro ⟨e, ⟨d, hd, he⟩, hn⟩
        exact ⟨d, hd, (ih d hd).mpr ⟨e, he, hn⟩⟩
    rw [mem_required, hparts, nodes_eq, List.exists_mem_cons_iff, Names, or_assoc]
    exact or_congr_right or_comm

theorem required_exclusive (c : Command) : c.required.Exclusive := by
  cases c <;> exact Capabilities.merge_exclusive _

end Command

namespace Script

theorem mem_required_nodes (s : Script) {n : String} :
    n ∈ s.required.required.names ↔
      (∃ c ∈ s.commands, ∃ d ∈ c.nodes, d.Names n) ∨ n ∈ s.additional.required.names := by
  simp only [required, Capabilities.mem_required_merge, List.mem_append, List.mem_map,
    List.mem_singleton, or_and_right, exists_or, exists_eq_left, exists_exists_and_eq_and,
    Command.mem_required_nodes]

theorem required_exclusive (s : Script) : s.required.Exclusive := Capabilities.merge_exclusive _

/-- A grant that covers the whole of a script covers each of its commands. -/
theorem covers_command {s : Script} {grant : Capabilities} (hg : grant.Covers s.required)
    {c : Command} (hc : c ∈ s.commands) : grant.Covers c.required :=
  Capabilities.covers_merge.mp hg c.required
    (List.mem_append_left _ (List.mem_map_of_mem hc))

end Script

section runs
variable {host : Host} {caller : Option Caller} {t : Thread}

/-- If the thread may run all its commands, then it denies none of them. -/
theorem runCommands_known {cs : List Command} (hcs : ∀ c ∈ cs, t.Allows c) (me : ObjectId)
    (held : List Holder) (s : State) :
    ∀ e ∈ (runCommands host caller cs ⟨me, t, held⟩ s).events, e.Known caller t.Allows t := by
  induction cs generalizing s with
  | nil => rintro _ ⟨⟩
  | cons c cs ih =>
    obtain ⟨hc, hrest⟩ := List.forall_mem_cons.mp hcs
    have hx : (exec host caller c).Follows host caller t.Allows me t :=
      exec_follows t.allows_hereditary c hc
    have hknown := (hx held s _ rfl).known
    have hcheck : t.grant.check c.required t.name = .ok () := Capabilities.check_eq_ok.mpr hc
    simp only [runCommands, hcheck]
    split
    · rintro _ ⟨⟩
    · cases (exec host caller c ⟨me, t, held⟩ s).outcome with
      | failed e => exact hknown
      | waiting => exact hknown
      | done v => exact List.forall_mem_append.mpr ⟨hknown, ih hrest _⟩

/-- What a thread tells of itself is no denial, and what its calls tell lies deeper. -/
theorem Entry.Known.not_denied {may : Command → Prop} {e : Entry}
    (he : e.Known (t.context.caller host) may t) (missing : List Capability) :
    e ≠ ⟨t.context.depth, .denied missing⟩ := by
  rintro rfl
  rcases he with ⟨_, htold⟩ | ⟨run, call, m, hrun, _, hctx, hm⟩
  · exact htold.not_denial trivial
  · unfold Context.caller at hrun
    split at hrun
    · cases hrun
    · cases hrun
      have hdeep := callAt_deep _ call m _ hm
      rw [hctx] at hdeep
      exact absurd hdeep (Nat.not_succ_le_self _)

theorem runCommands_not_denied {cs : List Command} (hcs : ∀ c ∈ cs, t.Allows c) (me : ObjectId)
    (held : List Holder) (s : State) (missing : List Capability) :
    ⟨t.context.depth, .denied missing⟩ ∉
      (runCommands host (t.context.caller host) cs ⟨me, t, held⟩ s).events :=
  fun he => (runCommands_known hcs me held s _ he).not_denied missing rfl

theorem callIn_not_denied {call : Call} (hg : call.grant.Covers call.script.required) (m : Moment)
    (missing : List Capability) :
    ⟨call.context.depth, .denied missing⟩ ∉ (Script.callIn host call m).events := by
  rw [Script.callIn_eq]
  by_cases hr : call.Ready m
  · obtain ⟨hl, h, g, t, h', hi, hb⟩ := hr
    obtain ⟨scratch, rfl⟩ := Thread.buildStack_ok hb
    have hallows : ∀ c ∈ call.script.commands,
        Thread.Allows { call.thread h.newStack.2 with scratch := some scratch } c :=
      fun c hc => Script.covers_command hg hc
    rw [callScript_built call hl hi hb, List.mem_cons, not_or]
    constructor
    · rintro ⟨⟩
    · exact runCommands_not_denied hallows _ _ _ missing
  · intro he
    cases (callScript_not_ready host _ hr).2 _ he

end runs

/-- A tree of commands requires exactly the names that its nodes require one by one, and a script
those of its commands together with what it declares besides; neither lists a name on both sides. So
a grant passes the check at every command of a script exactly if it gives access to all of them
merged. A thread whose grant gives access to all that its script requires denies none of its
commands, from whichever command on it runs, and nor does the thread of a call; calls that it makes
may still be denied below. -/
theorem requirements_aggregate (c : Command) (s : Script) (grant : Capabilities) (thread : String)
    (host : Host) :
    (∀ n, n ∈ c.required.required.names ↔ ∃ d ∈ c.nodes, d.Names n) ∧
    (∀ n, n ∈ s.required.required.names ↔
      (∃ c ∈ s.commands, ∃ d ∈ c.nodes, d.Names n) ∨ n ∈ s.additional.required.names) ∧
    c.required.Exclusive ∧ s.required.Exclusive ∧
    ((∀ c ∈ s.commands, grant.check c.required thread = .ok ()) ↔
      grant.canAccess (.merge (s.commands.map Command.required)) = true) ∧
    (∀ t : Thread, t.commands = s.commands → t.grant.canAccess s.required = true →
      ∀ me held i state missing, ⟨t.context.depth, .denied missing⟩ ∉
        (runCommands host (t.context.caller host) (t.commands.drop i) ⟨me, t, held⟩ state).events) ∧
    ∀ call m, call.script = s → call.grant.canAccess s.required = true →
      ∀ missing, ⟨call.context.depth, .denied missing⟩ ∉ (Script.callIn host call m).events := by
  simp only [Capabilities.canAccess_iff, Capabilities.check_eq_ok]
  refine ⟨fun n => c.mem_required_nodes, fun n => s.mem_required_nodes, c.required_exclusive,
    s.required_exclusive, ?_, ?_, ?_⟩
  · rw [Capabilities.covers_merge, List.forall_mem_map]
  · intro t hcommands hg me held i state missing
    have hallows : ∀ c ∈ t.commands.drop i, t.Allows c := by
      intro c hc
      rw [hcommands] at hc
      exact Script.covers_command hg (List.mem_of_mem_drop hc)
    exact runCommands_not_denied hallows me held state missing
  · rintro call m rfl hg missing
    exact callIn_not_denied hg m missing

namespace Nested

def gated : Command := .this (.requiring [.named "network"])

def gatedHeap : Heap := Sample.heap [gated]

def own : Capabilities := .requiring [.named "files", .named "clock"]

/-- Calls a script whose command is not covered, after a command of its own. -/
def outer : Call := Sample.call {} own
  [.this (.requiring [.named "files"]), .script (.requiring [.named "clock"]) (.value {} ⟨1⟩) []]

end Nested

/-- The grant gives access to all that the commands of the call require and the call runs them, and
the call that the second of them makes is denied. -/
theorem denied_below_only :
    Nested.outer.script.required.required.names = ["files", "clock"] ∧
    Nested.outer.grant.canAccess Nested.outer.script.required = true ∧
    ⟨1, .denied [.named "network"]⟩ ∈
      (Script.callIn Sample.host Nested.outer ⟨Nested.gatedHeap, 0⟩).events ∧
    ∀ missing, ⟨0, .denied missing⟩ ∉
      (Script.callIn Sample.host Nested.outer ⟨Nested.gatedHeap, 0⟩).events := by
  have hnames : Nested.outer.script.required.required.names = ["files", "clock"] := by decide
  have hg : Nested.outer.grant.canAccess Nested.outer.script.required = true := by decide
  have hevent : (Script.callIn Sample.host Nested.outer ⟨Nested.gatedHeap, 0⟩).events[5]? =
      some ⟨1, .denied [.named "network"]⟩ := by cbv
  obtain ⟨_, _, _, _, _, _, hcall⟩ := requirements_aggregate Nested.gated Nested.outer.script
    Nested.own "main" Sample.host
  exact ⟨hnames, hg, List.mem_of_getElem? hevent, hcall Nested.outer _ rfl hg⟩

end GuardedScript
