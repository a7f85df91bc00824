import GuardedScript.Proofs.Ownership

/-!
How a thread is laid out. Its inputs are new cells in a new group, its stack is a new one, and only
layers without a return slot are laid on it. So the new thread owns its scratch layer, and the
threads around it keep theirs.
-/

namespace GuardedScript

open Heap

theorem Heap.Fills.trans {h h' h'' : Heap} (a : h.Fills h') (b : h'.Fills h'') : h.Fills h'' :=
  ⟨a.grows.trans b.grows, b.groups.trans a.groups, b.layered.trans a.layered,
    fun hk => (b.values (Nat.lt_of_lt_of_le hk a.grows.cells)).trans (a.values hk)⟩

theorem Script.fillInputs_ok {s : Script} {inputs : List (ScriptInput × ObjectId)}
    {h h' : Heap} {items : List Item} (hi : s.fillInputs h inputs = .ok (h', items)) :
    h.Fills h' ∧ ∀ i ∈ items,
      (∃ k, i.id = .loose k ∧ h.cells.size ≤ k ∧ k < h'.cells.size) ∧
        ∃ e ∈ inputs, i.key = e.1.key := by
  induction inputs generalizing h items with
  | nil =>
    cases hi
    exact ⟨.refl _, fun _ hm => nomatch hm⟩
  | cons e inputs ih =>
    simp only [Script.fillInputs] at hi
    split at hi
    · cases hi
    · next h₁ hstore =>
      unfold store at hstore
      split at hstore
      · cases hstore
        split at hi
        · cases hi
        · next h₂ rest hrest =>
          cases hi
          obtain ⟨hf, hitems⟩ := ih hrest
          have hfirst := ((Fills.refl h).newItem (inputProperty e.1)).assign (Nat.le_refl _)
            (some e.2)
          have hlt : h.cells.size < h'.cells.size := by
            have hc := hf.grows.cells
            rw [size_cells_assign] at hc
            exact Nat.lt_of_lt_of_le (by simp [newItem]) hc
          refine ⟨hfirst.trans hf, List.forall_mem_cons.mpr ⟨?_, ?_⟩⟩
          · exact ⟨⟨_, rfl, Nat.le_refl _, hlt⟩, e, List.mem_cons_self, rfl⟩
          · intro i hm
            obtain ⟨⟨k, hk, hle, hlt⟩, e', he', hkey⟩ := hitems i hm
            exact ⟨⟨k, hk, Nat.le_trans hfirst.grows.cells hle, hlt⟩, e',
              List.mem_cons_of_mem e he', hkey⟩
      · cases hstore

theorem Script.inputMemory_ok {s : Script} {h h' : Heap} {inputs : List ObjectId} {g : GroupId}
    (hi : s.inputMemory h inputs = .ok (h', g)) :
    h.Quiet h' ∧ h'.layered = h.layered ∧ g = .loose h.groups.size ∧
      h'.groups.size = h.groups.size + 1 := by
  unfold Script.inputMemory at hi
  split at hi
  · cases hi
  · next hkeys =>
    split at hi
    · cases hi
    · split at hi
      · cases hi
      · next h₁ items hfill =>
        obtain ⟨hf, hitems⟩ := Script.fillInputs_ok hfill
        cases hi
        refine ⟨⟨hf.grows.newGroup fun i hm => (hitems i hm).1, ?_, hf.values⟩, hf.layered, ?_, ?_⟩
        · intro m id he
          rcases mem_of_itemId?_newGroup he with he | ⟨i, hm, hkey, _⟩
          · rwa [hf.itemId?] at he
          · -- the script declares no input under the reserved key
            obtain ⟨_, e, he, hek⟩ := hitems i hm
            refine (hkeys ?_).elim
            exact List.any_eq_true.mpr ⟨e.1, (List.of_mem_zip he).1,
              decide_eq_true (hek.symm.trans hkey)⟩
        · rw [hf.groups]
        · simp only [Table.size_push, hf.groups]

section
variable (b : Heap) (allowed : List Group)

/-- The heap `b` with a new stack on which some of the layers lie, none with a return slot. -/
structure Laying (h : Heap) : Prop where
  grows : b.Grows h
  groups : h.groups = b.groups
  cells : h.cells = b.cells
  size : h.layered.size = b.layered.size + 1
  sound : ∃ rank, h.SoundBy rank ∧
    ∀ τ : StackId, τ.index < b.layered.size → rank τ < rank ⟨b.layered.size⟩
  laid : ∀ g ∈ h.layers ⟨b.layered.size⟩, g ∈ allowed ∧
    ∀ x, b.Within g x → b.hasKey x returnKey = false

end

namespace Laying

variable {b h h' : Heap} {allowed : List Group}

theorem start (hb : b.Sound) : Laying b allowed b.newStack.1 := by
  obtain ⟨rank, hb⟩ := hb
  refine ⟨(Grows.refl b).newStack, rfl, rfl, ?_, ⟨_, hb.newStack, ?_⟩, ?_⟩
  · simp [newStack]
  · intro τ hτ
    simp only [hτ, if_true, Nat.lt_irrefl, if_false]
    exact hb.bounded hτ
  · intro g hg
    rw [layers_newStack, layers_eq_nil (τ := ⟨b.layered.size⟩) (Nat.le_refl _)] at hg
    cases hg

theorem stack_lt (hl : Laying b allowed h) :
    (⟨b.layered.size⟩ : StackId).index < h.layered.size := by
  rw [hl.size]
  exact Nat.lt_succ_self _

theorem layDown (hl : Laying b allowed h) (hb : b.Sound) {g : Group} (hg : g ∈ allowed)
    (hk : b.Knows g) (hd : Thread.layDown h ⟨b.layered.size⟩ g = .ok h') :
    Laying b allowed h' := by
  have hσ := hl.stack_lt
  obtain ⟨rank, hs, hrank⟩ := hl.sound
  unfold Thread.layDown at hd
  split at hd
  · cases hd
  · next hc =>
    unfold pushChecked at hd
    split at hd
    · cases hd
      refine ⟨hl.grows.setLayers (Nat.le_refl _) hσ _, hl.groups, hl.cells, ?_,
        ⟨rank, hs.setLayers hσ ?_ ?_, hrank⟩, ?_⟩
      · rw [size_layered_setLayers, hl.size]
      · intro g' hg'
        rcases List.mem_append.mp hg' with hg' | hg'
        · exact hs.layers hg'
        · rw [List.mem_singleton.mp hg']
          exact hk.grow hl.grows
      · intro g' hg' τ hτ
        rcases List.mem_append.mp hg' with hg' | hg'
        · exact hs.nested hg' hτ
        · rw [List.mem_singleton.mp hg'] at hτ
          exact hrank τ (hk _ hτ)
      · intro g' hg'
        rw [layers_setLayers hσ, if_pos rfl] at hg'
        rcases List.mem_append.mp hg' with hg' | hg'
        · exact hl.laid g' hg'
        · rw [List.mem_singleton.mp hg']
          refine ⟨hg, fun x hx => ?_⟩
          have hfree := Sound.no_key ⟨rank, hs⟩ (hk.grow hl.grows) (by simpa using hc)
            ((hl.grows.within_iff hb hk).mpr hx)
          cases hkey : b.hasKey x returnKey with
          | false => rfl
          | true =>
            rw [hl.grows.hasKey_mono (hb.hasLeaf hk hx) hkey] at hfree
            cases hfree
    · cases hd

theorem layAll (hb : b.Sound) (hk : ∀ g ∈ allowed, b.Knows g) {gs : List Group}
    (hgs : ∀ g ∈ gs, g ∈ allowed) {r : Except MemoryError Unit} (hl : Laying b allowed h)
    (hr : Thread.layAll h ⟨b.layered.size⟩ gs = (r, h')) : Laying b allowed h' := by
  induction gs generalizing h with
  | nil =>
    cases hr
    exact hl
  | cons g gs ih =>
    have hg := hgs g List.mem_cons_self
    rw [Thread.layAll] at hr
    split at hr
    · cases hr
      exact hl
    · next h₁ hd =>
      have hrest : ∀ g' ∈ gs, g' ∈ allowed := fun g' hg' => hgs g' (List.mem_cons_of_mem g hg')
      exact ih hrest (hl.layDown hb hg (hk g hg) hd) hr

theorem isSound (hl : Laying b allowed h) : h.Sound := by
  obtain ⟨rank, hs, _⟩ := hl.sound
  exact ⟨rank, hs⟩

theorem quiet (hl : Laying b allowed h) : b.Quiet h := by
  refine ⟨hl.grows, ?_, ?_⟩
  · intro m id he
    rwa [itemId?, hl.groups, ← itemId?] at he
  · intro k _
    rw [value?, hl.cells]
    rfl

theorem within_old (hl : Laying b allowed h) (hb : b.Sound) (hk : ∀ g ∈ allowed, b.Knows g)
    {τ : StackId} (hτ : b.layered.size ≤ τ.index) {x : GroupId} (hx : h.Within (.stack τ) x) :
    ∃ g ∈ allowed, b.Within g x := by
  obtain ⟨g, hg, hgx⟩ := within_stack.mp hx
  have hlt := lt_of_mem_layers hg
  have hsize := hl.size
  have hi : τ.index = b.layered.size := by omega
  obtain rfl : τ = ⟨b.layered.size⟩ := congrArg StackId.mk hi
  obtain ⟨hm, _⟩ := hl.laid g hg
  exact ⟨g, hm, (hl.grows.within_iff hb (hk g hm)).mp hgx⟩

end Laying

/-- The heap `b` with a stack that is laid out: some of the layers, and an empty scratch layer. -/
structure LaidOut (b : Heap) (allowed : List Group) (h : Heap) : Prop where
  quiet : b.Quiet h
  sound : h.Sound
  stack : b.layered.size < h.layered.size
  group : b.groups.size < h.groups.size
  empty : h.itemId? b.groups.size returnKey = none
  reach : ∀ {τ x}, b.layered.size ≤ τ.index → h.Within (.stack τ) x → τ = ⟨b.layered.size⟩ ∧
    (x = .loose b.groups.size ∨ ∃ g ∈ allowed, b.Within g x ∧ b.hasKey x returnKey = false)

section
variable {b h : Heap} {allowed : List Group}

theorem Laying.pushEmpty (hl : Laying b allowed h) (hb : b.Sound)
    (hk : ∀ g ∈ allowed, b.Knows g) :
    LaidOut b allowed (h.pushEmpty ⟨b.layered.size⟩).1 := by
  have hσ := hl.stack_lt
  obtain ⟨rank, hs, hrank⟩ := hl.sound
  have hgrows := hl.grows.pushEmpty (Nat.le_refl _) hσ
  have hsize : (h.pushEmpty ⟨b.layered.size⟩).1.layered.size = b.layered.size + 1 :=
    (size_layered_setLayers _ _ _).trans hl.size
  have hgroups : (h.pushEmpty ⟨b.layered.size⟩).1.groups.size = b.groups.size + 1 := by
    rw [← hl.groups]
    exact Table.size_push _ _
  have hitems : ∀ m, (h.pushEmpty ⟨b.layered.size⟩).1.itemId? m returnKey =
      if m = b.groups.size then none else h.itemId? m returnKey := by
    rw [← hl.groups]
    exact fun m => itemId?_newGroup h true [] m returnKey
  refine ⟨⟨hgrows, ?_, hl.quiet.values⟩, ⟨rank, hs.pushEmpty hσ⟩, by omega, by omega, ?_, ?_⟩
  · intro m id he
    rw [hitems] at he
    split at he
    · cases he
    · exact hl.quiet.closed he
  · rw [hitems, if_pos rfl]
  · intro τ x hτ hx
    obtain ⟨g, hm, hgx⟩ := within_stack.mp hx
    have hlt := lt_of_mem_layers hm
    have hi : τ.index = b.layered.size := by omega
    obtain rfl : τ = ⟨b.layered.size⟩ := congrArg StackId.mk hi
    refine ⟨rfl, ?_⟩
    rw [layers_pushEmpty hσ, if_pos rfl] at hm
    rcases List.mem_append.mp hm with hm | hm
    · obtain ⟨hallowed, hfree⟩ := hl.laid g hm
      have hbx := (hgrows.within_iff hb (hk g hallowed)).mp hgx
      exact .inr ⟨g, hallowed, hbx, hfree x hbx⟩
    · rw [List.mem_singleton.mp hm] at hgx
      rw [within_plain.mp hgx, hl.groups]
      exact .inl rfl

theorem LaidOut.not_hasKey (hl : LaidOut b allowed h) {x : GroupId} (hx : b.HasLeaf (.plain x))
    (hk : b.hasKey x returnKey = false) : h.hasKey x returnKey = false := by
  cases hkey : h.hasKey x returnKey with
  | false => rfl
  | true =>
    rcases hl.quiet.grows.hasKey hx hkey with hold | ⟨m, k, rfl, he, _⟩
    · rw [hk] at hold
      cases hold
    · rw [hasKey_loose, hl.quiet.closed he] at hk
      cases hk

/-- The thread's stack owns the scratch layer. -/
theorem LaidOut.owns (hl : LaidOut b allowed h) (hb : b.Sound) (hk : ∀ g ∈ allowed, b.Knows g)
    {ambient : Option Group} (ha : ∀ g ∈ ambient, b.Knows g) :
    h.Owns ambient ⟨b.layered.size⟩ b.groups.size := by
  have hfresh : ∀ {g}, b.Knows g → ¬ h.Within g (.loose b.groups.size) := by
    intro g hg hx
    have hlt : b.groups.size < b.groups.size :=
      hb.hasLeaf hg ((hl.quiet.grows.within_iff hb hg).mp hx)
    omega
  constructor
  · exact hl.stack
  · exact hl.group
  · intro g hg
    exact (ha g hg).grow hl.quiet.grows
  · intro g hg
    exact hfresh (ha g hg)
  · intro τ hx
    rcases Nat.lt_or_ge τ.index b.layered.size with hτ | hτ
    · exact (hfresh (knows_stack hτ) hx).elim
    · exact (hl.reach hτ hx).1
  · intro x hx hkey
    obtain ⟨_, rfl | ⟨g, hg, hgx, hfree⟩⟩ := hl.reach (Nat.le_refl _) hx
    · rfl
    · rw [hl.not_hasKey (hb.hasLeaf (hk g hg) hgx) hfree] at hkey
      cases hkey
  · intro id he
    rw [hl.empty] at he
    cases he
  · intro id he
    rw [hl.empty] at he
    cases he
  · intro id m key he
    rw [hl.empty] at he
    cases he

end

theorem Heap.knows_memory (h : Heap) (o : ObjectId) : h.Knows (h.memory o) := by
  intro leaf hl
  rw [memory, Group.leaves, Group.leavesList_map_plain] at hl
  obtain ⟨x, hx, rfl⟩ := List.mem_map.mp hl
  unfold innerGroups at hx
  split at hx
  · cases hx
  · next hy =>
    simp only [List.mem_cons, List.mem_flatMap] at hx
    rcases hx with rfl | rfl | ⟨_, _, rfl | rfl | hx⟩
    · simp [HasLeaf, hy]
    · simp [HasLeaf, hy]
    · trivial
    · trivial
    · cases hx

theorem Heap.not_within_memory {h h' : Heap} {o : ObjectId} {n : Nat} :
    ¬ h'.Within (h.memory o) (.loose n) := by
  have hleaf : ∀ {leaf}, leaf ∈ (h.memory o).leaves → ∃ x ∈ h.innerGroups o, .plain x = leaf := by
    intro leaf hl
    rw [memory, Group.leaves, Group.leavesList_map_plain] at hl
    exact List.mem_map.mp hl
  intro hw
  cases hw with
  | plain hl =>
    obtain ⟨x, hx, he⟩ := hleaf hl
    cases he
    unfold innerGroups at hx
    split at hx
    · cases hx
    · simp at hx
  | object hl =>
    obtain ⟨x, _, he⟩ := hleaf hl
    cases he
  | layer hl =>
    obtain ⟨x, _, he⟩ := hleaf hl
    cases he

section
variable {call : Call} {m : Moment} {b h : Heap} {g : GroupId}

/-- The layers that a call lays on the stack of its thread. -/
def Call.layers (call : Call) (b : Heap) (g : GroupId) : List Group :=
  call.context.ambient.toList ++ [b.memory call.script.parent, .plain g]

/-- How the heap `b`, in which the inputs are ready, stands to the one at the call. -/
structure Call.Fed (call : Call) (m : Moment) (b : Heap) (g : GroupId) : Prop where
  quiet : m.heap.Quiet b
  sound : b.Sound
  layered : b.layered = m.heap.layered
  group : g = .loose m.heap.groups.size
  size : b.groups.size = m.heap.groups.size + 1
  before : m.heap.Sound
  ambient : ∀ a ∈ call.context.ambient, m.heap.Knows a

theorem Call.fed (hs : m.heap.Sound) (ha : ∀ a ∈ call.context.ambient, m.heap.Knows a)
    (hi : call.script.inputMemory m.heap call.inputs = .ok (b, g)) : call.Fed m b g := by
  obtain ⟨hq, hl, hg, hsize⟩ := Script.inputMemory_ok hi
  exact ⟨hq, hs.grow hq.grows (by rw [hl]), hl, hg, hsize, hs, ha⟩

theorem Call.Fed.knows (hf : call.Fed m b g) : ∀ l ∈ call.layers b g, b.Knows l := by
  intro l hl
  simp only [Call.layers, List.mem_append, Option.mem_toList, List.mem_cons, List.not_mem_nil,
    or_false] at hl
  rcases hl with hl | rfl | rfl
  · exact (hf.ambient l hl).grow hf.quiet.grows
  · exact b.knows_memory _
  · intro leaf hleaf
    rw [Group.leaves, List.mem_singleton] at hleaf
    rw [hleaf, hf.group]
    have hsize := hf.size
    simp only [HasLeaf]
    omega

/-- No layer leads to a scratch layer that another stack owns. -/
theorem Call.Fed.apart (hf : call.Fed m b g) {σ : StackId} {n : Nat}
    (ho : m.heap.Owns call.context.ambient σ n) {l : Group} (hl : l ∈ call.layers b g) :
    ¬ b.Within l (.loose n) := by
  intro hx
  simp only [Call.layers, List.mem_append, Option.mem_toList, List.mem_cons, List.not_mem_nil,
    or_false] at hl
  rcases hl with hl | rfl | rfl
  · exact ho.away l hl ((hf.quiet.grows.within_iff hf.before (hf.ambient l hl)).mp hx)
  · exact not_within_memory hx
  · have hn := ho.group
    rw [within_plain, hf.group, GroupId.loose.injEq] at hx
    omega

theorem Heap.Quiet.trans {h h' h'' : Heap} (a : h.Quiet h') (b : h'.Quiet h'') : h.Quiet h'' :=
  ⟨a.grows.trans b.grows, fun he => a.closed (b.closed he),
    fun hk => (b.values (Nat.lt_of_lt_of_le hk a.grows.cells)).trans (a.values hk)⟩

theorem Call.Fed.laying (hf : call.Fed m b g) {r : Except MemoryError Unit}
    (hr : Thread.layAll b.newStack.1 b.newStack.2 (call.layers b g) = (r, h)) :
    Laying b (call.layers b g) h := by
  have hstart : Laying b (call.layers b g) b.newStack.1 := .start hf.sound
  exact hstart.layAll hf.sound hf.knows (fun _ hl => hl) hr

theorem Call.Fed.unbuilt (hf : call.Fed m b g) {e : MemoryError}
    (hb : (call.thread b.newStack.2).buildStack b.newStack.1 call.script.parent (.plain g) =
      (.error e, h)) :
    h.Sound ∧ Spares call.context.ambient (fun _ _ => True) m.heap h := by
  unfold Thread.buildStack at hb
  split at hb
  · next hlay =>
    cases hb
    have hl := hf.laying hlay
    refine ⟨hl.isSound, (hf.quiet.trans hl.quiet).spares hf.before ?_⟩
    intro σ n τ ho hτ hx
    rw [← hf.layered] at hτ
    obtain ⟨l, hm, hlx⟩ := hl.within_old hf.sound hf.knows hτ hx
    exact hf.apart ho hm hlx
  · cases hb

/-- A thread that is ready to run: it owns an empty slot, and no other stack's slot was touched. -/
structure Call.Built (call : Call) (m : Moment) (t : Thread) (h : Heap) (n : Nat) : Prop where
  context : t.context = call.context
  scratch : t.scratch = some (.loose n)
  sound : h.Sound
  owns : h.Owns call.context.ambient t.stack n
  empty : h.returned n = none
  spares : Spares call.context.ambient (fun _ _ => True) m.heap h
  apart : ∀ {σ k}, m.heap.Owns call.context.ambient σ k → σ ≠ t.stack ∧ k ≠ n

theorem Call.Fed.built (hf : call.Fed m b g) {t : Thread}
    (hb : (call.thread b.newStack.2).buildStack b.newStack.1 call.script.parent (.plain g) =
      (.ok t, h)) : ∃ n, call.Built m t h n := by
  unfold Thread.buildStack at hb
  split at hb
  · cases hb
  · next h₁ hlay =>
    have hl := hf.laying hlay
    have hout := hl.pushEmpty hf.sound hf.knows
    cases hb
    refine ⟨b.groups.size, rfl, ?_, hout.sound, ?_, ?_, ?_, ?_⟩
    · rw [← hl.groups]
    · exact hout.owns hf.sound hf.knows fun a ha => (hf.ambient a ha).grow hf.quiet.grows
    · rw [returned]
      exact congrArg (Option.bind · _) hout.empty
    · refine (hf.quiet.trans hout.quiet).spares hf.before ?_
      intro σ n τ ho hτ hx
      rw [← hf.layered] at hτ
      obtain ⟨_, hx | ⟨l, hm, hlx, _⟩⟩ := hout.reach hτ hx
      · have hn := ho.group
        have hsize := hf.size
        cases hx
        omega
      · exact hf.apart ho hm hlx
    · intro σ k ho
      have hσ := ho.stack
      have hk := ho.group
      have hsize := hf.size
      rw [← hf.layered] at hσ
      refine ⟨?_, by omega⟩
      rintro rfl
      exact Nat.lt_irrefl _ hσ

end

end GuardedScript
