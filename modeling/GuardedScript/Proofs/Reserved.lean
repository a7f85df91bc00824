import Mathlib.Data.List.Infix
import GuardedScript.Proofs.Permanence
import GuardedScript.Proofs.ReturnSlot

/-!
The reserved key on the stack of a running thread. When a stack is laid out no layer holds the key,
commands add other keys only, and a thread returns into its own scratch layer, which no other layer
leads to. So the key stands in the scratch layer once a value has been returned, and in no other
layer at any time: the first value finds its slot free, and every later one is refused.
-/

namespace GuardedScript

open Heap

namespace Heap

/-- No item came under the reserved key. Layers may have been taken off and laid on; one that was
laid on leads neither to the key nor to a group from before that takes new items. -/
structure Abstains (h h' : Heap) : Prop where
  alike : h.Alike h'
  groups : h.groups.size ≤ h'.groups.size
  layered : h.layered.size ≤ h'.layered.size
  insertable : ∀ {n}, n < h.groups.size → h'.insertable (.loose n) = h.insertable (.loose n)
  slots : ∀ {n}, n < h.groups.size →
    h'.hasKey (.loose n) returnKey = h.hasKey (.loose n) returnKey
  laid : ∀ {τ g}, τ.index < h.layered.size → g ∈ h'.layers τ → g ∈ h.layers τ ∨
    ∀ {x}, h'.Within g x → h'.hasKey x returnKey = false ∧ h.insertable x = false

/-- The loose group takes new items. The older stacks do not lead to it, and the other layers of its
own stack lead neither to it nor to the reserved key. -/
structure Reserves (older : Nat) (h : Heap) (σ : StackId) (n : Nat) : Prop where
  older_le : older ≤ h.layered.size
  stack : σ.index < h.layered.size
  group : n < h.groups.size
  insertable : h.insertable (.loose n) = true
  away : ∀ {τ}, τ.index < older → ¬ h.Within (.stack τ) (.loose n)
  apart : ∀ {g}, g ∈ h.layers σ → g ≠ .plain (.loose n) → ¬ h.Within g (.loose n)
  clear : ∀ {g x}, g ∈ h.layers σ → g ≠ .plain (.loose n) → h.Within g x →
    h.hasKey x returnKey = false

variable {h h' h'' : Heap} {older n : Nat} {σ : StackId}

theorem Sound.knows_layer (hs : h.Sound) {τ : StackId} {g : Group} (hg : g ∈ h.layers τ) :
    h.Knows g := by
  obtain ⟨rank, hs⟩ := hs
  exact hs.layers hg

theorem insertable_insertItem (h : Heap) (n : Nat) (i : Item) (x : GroupId) :
    (h.insertItem n i).insertable x = h.insertable x := by
  cases x with
  | fields | statics => rfl
  | loose m =>
    simp only [insertable, insertItem, Table.get?_modify]
    by_cases hm : n = m
    · rw [if_pos hm]
      cases h.groups.get? m <;> rfl
    · rw [if_neg hm]

namespace Abstains

/-- What is closed later was closed before, or was not there. -/
theorem not_insertable (a : h.Abstains h') {x : GroupId} (hx : h'.insertable x = false) :
    h.insertable x = false := by
  cases x with
  | fields | statics => rfl
  | loose n =>
    by_cases hn : n < h.groups.size
    · rwa [← a.insertable hn]
    · rw [Heap.insertable, Table.get?_eq_none (Nat.le_of_not_lt hn)]
      rfl

theorem hasKey (a : h.Abstains h') {x : GroupId} (hx : h.HasLeaf (.plain x)) :
    h'.hasKey x returnKey = h.hasKey x returnKey := by
  cases x with
  | fields o v => rw [Heap.hasKey, a.alike.fieldProperties hx, ← Heap.hasKey]
  | statics r t v => rw [Heap.hasKey, a.alike.registry, ← Heap.hasKey]
  | loose n => exact a.slots hx

theorem knows (a : h.Abstains h') {g : Group} (hg : h.Knows g) : h'.Knows g :=
  hg.mono a.alike.isSome a.groups a.layered

/-- What a group leads to now it led to before, unless it was laid on since. -/
theorem within (a : h.Abstains h') (hs : h.Sound) {g : Group} {x : GroupId} (hg : h.Knows g)
    (hx : h'.Within g x) :
    h.Within g x ∨ h'.hasKey x returnKey = false ∧ h.insertable x = false := by
  obtain ⟨rank, hs⟩ := hs
  induction hx with
  | plain hl => exact .inl (.plain hl)
  | object hl hx => exact .inl (.object hl (a.alike.outerGroups (hg _ hl) ▸ hx))
  | layer hl hl' hx ih =>
    rcases a.laid (hg _ hl) hl' with hold | hnew
    · exact (ih (hs.layers hold)).imp_left fun hx => .layer hl hold hx
    · exact .inr (hnew hx)

theorem not_within (a : h.Abstains h') (hs : h.Sound) {g : Group} (hg : h.Knows g)
    (hn : h.insertable (.loose n) = true) (hx : ¬ h.Within g (.loose n)) :
    ¬ h'.Within g (.loose n) := by
  intro hx'
  rcases a.within hs hg hx' with hold | ⟨_, hclosed⟩
  · exact hx hold
  · rw [hn] at hclosed
    cases hclosed

theorem trans (a : h.Abstains h') (c : h'.Abstains h'') (hs : h'.Sound) : h.Abstains h'' where
  alike := a.alike.trans c.alike
  groups := Nat.le_trans a.groups c.groups
  layered := Nat.le_trans a.layered c.layered
  insertable hn := (c.insertable (Nat.lt_of_lt_of_le hn a.groups)).trans (a.insertable hn)
  slots hn := (c.slots (Nat.lt_of_lt_of_le hn a.groups)).trans (a.slots hn)
  laid {τ g} hτ hg := by
    rcases c.laid (Nat.lt_of_lt_of_le hτ a.layered) hg with hold | hnew
    · refine (a.laid hτ hold).imp_right fun hfirst x hx => ?_
      have hknown := hs.knows_layer hold
      rcases c.within hs hknown hx with hx | ⟨hkey, hclosed⟩
      · obtain ⟨hkey, hclosed⟩ := hfirst hx
        exact ⟨(c.hasKey (hs.hasLeaf hknown hx)).trans hkey, hclosed⟩
      · exact ⟨hkey, a.not_insertable hclosed⟩
    · refine .inr fun {x} hx => ?_
      obtain ⟨hkey, hclosed⟩ := hnew hx
      exact ⟨hkey, a.not_insertable hclosed⟩

theorem of_keeps (k : h.Keeps h') : h.Abstains h' where
  alike := k.alike
  groups := k.groupCount
  layered := k.stackCount
  insertable hn := by rw [Heap.insertable, k.groups hn, ← Heap.insertable]
  slots hn := by rw [Heap.hasKey, k.groups hn, ← Heap.hasKey]
  laid hτ hg := .inl (k.layers hτ ▸ hg)

theorem refl (h : Heap) : h.Abstains h := .of_keeps (.refl h)

theorem insertItem (h : Heap) (m : Nat) {i : Item} (hi : i.key ≠ returnKey) :
    h.Abstains (h.insertItem m i) where
  alike := ⟨rfl, fun hx => ⟨_, hx, rfl, rfl⟩⟩
  groups := by simp [Heap.insertItem]
  layered := Nat.le_refl _
  insertable _ := insertable_insertItem h m i _
  slots _ := by rw [hasKey_loose, hasKey_loose, itemId?_insertItem, if_neg fun he => hi he.2.2]
  laid _ hg := .inl hg

end Abstains

/-- Where a value is returned the key comes into the scratch layer, and nowhere else. -/
theorem Opened.not_hasKey {v : ObjectId} (hp : Opened n v h h') (hs : h.Sound) {g : Group}
    (hg : h.Knows g) (hn : ¬ h.Within g (.loose n)) {x : GroupId} (hx : h.Within g x)
    (hk : h.hasKey x returnKey = false) : h'.hasKey x returnKey = false := by
  by_contra htrue
  rcases hp.grows.hasKey (hs.hasLeaf hg hx) (Bool.eq_true_of_not_eq_false htrue) with
    hold | ⟨m, k, rfl, he, _⟩
  · rw [hk] at hold
    cases hold
  · have hm : m ≠ n := fun hm => hn (hm ▸ hx)
    rw [hp.other hm] at he
    rw [hasKey_loose, he] at hk
    cases hk

namespace Reserves

theorem abstain (r : Reserves older h σ n) (hs : h.Sound) (a : h.Abstains h') :
    Reserves older h' σ n where
  older_le := Nat.le_trans r.older_le a.layered
  stack := Nat.lt_of_lt_of_le r.stack a.layered
  group := Nat.lt_of_lt_of_le r.group a.groups
  insertable := (a.insertable r.group).trans r.insertable
  away hτ := a.not_within hs (knows_stack (Nat.lt_of_lt_of_le hτ r.older_le)) r.insertable
    (r.away hτ)
  apart hg hne := by
    rcases a.laid r.stack hg with hold | hnew
    · exact a.not_within hs (hs.knows_layer hold) r.insertable (r.apart hold hne)
    · intro hx
      have hclosed := (hnew hx).2
      rw [r.insertable] at hclosed
      cases hclosed
  clear hg hne hx := by
    rcases a.laid r.stack hg with hold | hnew
    · have hknown := hs.knows_layer hold
      rcases a.within hs hknown hx with hx | ⟨hkey, _⟩
      · exact (a.hasKey (hs.hasLeaf hknown hx)).trans (r.clear hold hne hx)
      · exact hkey
    · exact (hnew hx).1

variable {v : ObjectId}

theorem opened (r : Reserves older h σ n) (hs : h.Sound) (hp : Opened n v h h')
    (hi : ∀ x, h'.insertable x = h.insertable x) : Reserves older h' σ n := by
  have hlayers : ∀ τ, h'.layers τ = h.layers τ := by
    intro τ
    rw [Heap.layers, hp.layered, ← Heap.layers]
  have hwithin : ∀ {g x}, g ∈ h'.layers σ → h'.Within g x → g ∈ h.layers σ ∧ h.Within g x := by
    intro g x hg hx
    rw [hlayers] at hg
    exact ⟨hg, (hp.grows.within_iff hs (hs.knows_layer hg)).mp hx⟩
  refine ⟨?_, ?_, ?_, ?_, ?_, ?_, ?_⟩
  · rw [hp.layered]
    exact r.older_le
  · rw [hp.layered]
    exact r.stack
  · exact Nat.lt_of_lt_of_le r.group hp.grows.groups
  · rw [hi]
    exact r.insertable
  · intro τ hτ hx
    have hknown := knows_stack (Nat.lt_of_lt_of_le hτ r.older_le)
    exact r.away hτ ((hp.grows.within_iff hs hknown).mp hx)
  · intro g hg hne hx
    obtain ⟨hg, hx⟩ := hwithin hg hx
    exact r.apart hg hne hx
  · intro g x hg hne hx
    obtain ⟨hg, hx⟩ := hwithin hg hx
    exact hp.not_hasKey hs (hs.knows_layer hg) (r.apart hg hne) hx (r.clear hg hne hx)

end Reserves

/-- A value that is returned into a group newer than the heap `b` comes under no key of `b`. -/
theorem Abstains.opened {b : Heap} {v : ObjectId} (a : b.Abstains h) (hs : h.Sound)
    (r : Reserves b.layered.size h σ n) (hn : b.groups.size ≤ n) (hp : Opened n v h h')
    (hi : ∀ x, h'.insertable x = h.insertable x) : b.Abstains h' where
  alike := a.alike.trans hp.grows.alike
  groups := Nat.le_trans a.groups hp.grows.groups
  layered := Nat.le_trans a.layered hp.grows.layered
  insertable hm := (hi _).trans (a.insertable hm)
  slots {m} hm := by
    rw [← a.slots hm, hasKey_loose, hasKey_loose, hp.other (by omega)]
  laid {τ g} hτ hg := by
    rw [Heap.layers, hp.layered, ← Heap.layers] at hg
    have hknown := hs.knows_layer hg
    have haway : ¬ h.Within g (.loose n) := fun hx => r.away hτ (within_stack.mpr ⟨g, hg, hx⟩)
    refine (a.laid hτ hg).imp_right fun hnew x hx => ?_
    have hx := (hp.grows.within_iff hs hknown).mp hx
    obtain ⟨hkey, hclosed⟩ := hnew hx
    exact ⟨hp.not_hasKey hs hknown haway hx hkey, hclosed⟩

end Heap

/-- Operations add no item under the reserved key. -/
def Host.Abstains (host : Host) : Prop := ∀ op frame (s : State) args, s.heap.Sound →
  (host.perform op frame s args).heap.Sound ∧ s.heap.Abstains (host.perform op frame s args).heap

section
variable (host : Host) (me : ObjectId) (t : Thread)

/-- What a thread on an object does to the heap at once, and the value that it returns by it. -/
inductive Thread.Does (h : Heap) : Option ObjectId → Heap → Prop where
  | set {path v h'} (hs : t.setValue h path v = .ok h') : Does h none h'
  | add {key type h'} (hs : t.addLocal h key type = .ok h') : Does h none h'
  | giveBack {v h'} (hs : t.setReturn h v = .ok h') : Does h v h'
  | perform (op held now pointer args) :
      Does h none (host.perform op ⟨me, t, held⟩ ⟨⟨h, now⟩, pointer⟩ args).heap
  | call (inner : Call) (now : Nat) (hc : t.context.child = .ok inner.context) :
      Does h none (Script.callIn host inner ⟨h, now⟩).state.heap

/-- What a thread does step by step, with the values that it returns on the way. -/
inductive Thread.Gives (h : Heap) : List ObjectId → Heap → Prop where
  | start : Gives h [] h
  | next {vs h' v h''} (hg : Gives h vs h') (hd : t.Does host me h' v h'') :
      Gives h (vs ++ v.toList) h''

/-- A heap that a thread's run passes through, with the values returned until then. -/
inductive Thread.Traverses (h : Heap) : List ObjectId → Heap → Prop where
  | between {vs h'} (hg : t.Gives host me h vs h') : Traverses h vs h'
  | inside {vs h' inner h''} (hg : t.Gives host me h vs h')
      (hc : t.context.child = .ok inner.context) (hp : Call.Passes host inner h' h'') :
      Traverses h vs h''

end

section
variable {host : Host} {me : ObjectId} {t : Thread} {b h h' : Heap} {older n : Nat}

theorem Thread.Act.does (ha : t.Act host me h h') : ∃ v, t.Does host me h v h' := by
  cases ha with
  | set hs => exact ⟨none, .set hs⟩
  | add hs => exact ⟨none, .add hs⟩
  | giveBack hs => exact ⟨_, .giveBack hs⟩
  | perform op held now pointer args => exact ⟨none, .perform op held now pointer args⟩
  | call inner now hc => exact ⟨none, .call inner now hc⟩

theorem Thread.setValue_abstains {path : String} {v : ObjectId}
    (hs : t.setValue h path v = .ok h') : h.Abstains h' := by
  unfold Thread.setValue at hs
  split at hs
  · cases hs
  · next hset =>
    cases hs
    exact .of_keeps (keeps_setPath hset)
  · cases hs

theorem Thread.addLocal_abstains {key : String} {type : TypeRef}
    (hs : t.addLocal h key type = .ok h') (hsound : h.Sound) : h'.Sound ∧ h.Abstains h' := by
  obtain ⟨hq, hl⟩ := Thread.addLocal_quiet hs
  refine ⟨hsound.grow hq.grows (by rw [hl]), ?_⟩
  obtain ⟨hkey, m, p, rfl, _, rfl⟩ := Thread.addLocal_ok hs
  have hitem : h.Abstains (h.newItem p).1 := .of_keeps ((Keeps.refl h).newItem p)
  have hsound' := hsound.grow ((Grows.refl h).newItem p) rfl
  exact hitem.trans (.insertItem _ m hkey) hsound'

theorem Thread.setReturn_insertable {v : ObjectId} (hr : t.setReturn h (some v) = .ok h')
    (x : GroupId) : h'.insertable x = h.insertable x := by
  obtain ⟨m, p, _, _, _, _, rfl⟩ := Thread.setReturn_ok hr
  rw [insertable_insertItem]
  cases x with
  | fields | statics => rfl
  | loose m => rw [insertable, groups_assign]; rfl

/-- A thread whose scratch layer is reserved, above so many older stacks. -/
structure Thread.Reserving (t : Thread) (older : Nat) (h : Heap) (n : Nat) : Prop where
  sound : h.Sound
  ambient : ∀ g ∈ t.context.ambient, h.Knows g
  scratch : t.scratch = some (.loose n)
  reserves : Reserves older h t.stack n

/-- Calls add no item under the reserved key, at any point. -/
def Call.Abstain (host : Host) (inner : Call) (h : Heap) : Prop := ∀ h', inner.Passes host h h' →
  h.Sound → (∀ g ∈ inner.context.ambient, h.Knows g) → h'.Sound ∧ h.Abstains h'

namespace Thread.Reserving

theorem abstain (ht : t.Reserving older h n) (hs : h'.Sound) (a : h.Abstains h') :
    t.Reserving older h' n :=
  ⟨hs, fun g hg => a.knows (ht.ambient g hg), ht.scratch, ht.reserves.abstain ht.sound a⟩

theorem opened (ht : t.Reserving older h n) {v : ObjectId} (hr : t.setReturn h (some v) = .ok h') :
    Opened n v h h' ∧ t.Reserving older h' n := by
  have hp := Thread.setReturn_opened ht.scratch ht.reserves.group hr
  exact ⟨hp, ht.sound.grow hp.grows (by rw [hp.layered]),
    fun g hg => (ht.ambient g hg).grow hp.grows, ht.scratch,
    ht.reserves.opened ht.sound hp (Thread.setReturn_insertable hr)⟩

/-- A thread adds no item under the reserved key, but for the values that it returns. -/
theorem does (ht : t.Reserving older h n) (hh : host.Abstains)
    (hcalls : ∀ inner : Call, t.context.child = .ok inner.context → inner.Abstain host h)
    {v : Option ObjectId} (hd : t.Does host me h v h') :
    (v = none ∧ h'.Sound ∧ h.Abstains h') ∨ ∃ w, v = some w ∧ t.setReturn h (some w) = .ok h' := by
  cases hd with
  | set hs => exact .inl ⟨rfl, Thread.setValue_sound hs ht.sound, Thread.setValue_abstains hs⟩
  | add hs => exact .inl ⟨rfl, Thread.addLocal_abstains hs ht.sound⟩
  | giveBack hs =>
    cases v with
    | none =>
      cases hs
      exact .inl ⟨rfl, ht.sound, .refl h⟩
    | some w => exact .inr ⟨w, rfl, hs⟩
  | perform op held now pointer args =>
    exact .inl ⟨rfl, hh op ⟨me, t, held⟩ ⟨⟨h, now⟩, pointer⟩ args ht.sound⟩
  | call inner now hc =>
    refine .inl ⟨rfl, hcalls inner hc _ (callIn_passes inner ⟨h, now⟩) ht.sound ?_⟩
    rw [(Context.child_eq_ok.mp hc).2]
    exact ht.ambient

end Thread.Reserving

section start

theorem Laying.reserves {allowed : List Group} (hl : Laying b allowed h) (hb : b.Sound)
    (hk : ∀ g ∈ allowed, b.Knows g) :
    Reserves b.layered.size (h.pushEmpty ⟨b.layered.size⟩).1 ⟨b.layered.size⟩ b.groups.size := by
  have hout := hl.pushEmpty hb hk
  have hgrows := hout.quiet.grows
  have hfresh : ∀ {g}, b.Knows g → ¬ b.Within g (.loose b.groups.size) :=
    fun hg hx => Nat.lt_irrefl _ (hb.hasLeaf hg hx)
  have hlaid : ∀ {g}, g ∈ (h.pushEmpty ⟨b.layered.size⟩).1.layers ⟨b.layered.size⟩ →
      g ≠ .plain (.loose b.groups.size) → g ∈ h.layers ⟨b.layered.size⟩ := by
    intro g hg hne
    rw [layers_pushEmpty hl.stack_lt, if_pos rfl, hl.groups] at hg
    rcases List.mem_append.mp hg with hg | hg
    · exact hg
    · exact absurd (List.mem_singleton.mp hg) hne
  refine ⟨hgrows.layered, hout.stack, hout.group, ?_, ?_, ?_, ?_⟩
  · simp [← hl.groups, Heap.pushEmpty, Heap.newGroup, Heap.setLayers, Heap.insertable]
  · intro τ hτ hx
    exact hfresh (knows_stack hτ) ((hgrows.within_iff hb (knows_stack hτ)).mp hx)
  · intro g hg hne hx
    have hknown := hk g (hl.laid g (hlaid hg hne)).1
    exact hfresh hknown ((hgrows.within_iff hb hknown).mp hx)
  · intro g x hg hne hx
    obtain ⟨hallowed, hfree⟩ := hl.laid g (hlaid hg hne)
    have hknown := hk g hallowed
    have hx := (hgrows.within_iff hb hknown).mp hx
    exact hout.not_hasKey (hb.hasLeaf hknown hx) (hfree x hx)

/-- A stack that was laid out holds the reserved key nowhere. -/
theorem Thread.buildStack_reserving {t₀ : Thread} {inputs : Group} (hb : b.Sound)
    (hσ : t₀.stack = b.newStack.2) (ha : ∀ g ∈ t₀.context.ambient, b.Knows g)
    (hi : b.Knows inputs) (hbuild : t₀.buildStack b.newStack.1 me inputs = (.ok t, h)) :
    t.Reserving b.layered.size h b.groups.size ∧
      h.hasKey (.loose b.groups.size) returnKey = false := by
  have hknown : ∀ g ∈ t₀.context.ambient.toList ++ [b.memory me, inputs], b.Knows g := by
    intro g hg
    simp only [List.mem_append, Option.mem_toList, List.mem_cons, List.not_mem_nil,
      or_false] at hg
    rcases hg with hg | rfl | rfl
    · exact ha g hg
    · exact b.knows_memory me
    · exact hi
  unfold Thread.buildStack at hbuild
  split at hbuild
  · cases hbuild
  · next h₁ hlay =>
    rw [hσ] at hlay
    have hstart : Laying b (t₀.context.ambient.toList ++ [b.memory me, inputs]) b.newStack.1 :=
      .start hb
    have hl := hstart.layAll hb hknown (fun _ hg => hg) hlay
    have hout := hl.pushEmpty hb hknown
    have hstack : t₀.stack = ⟨b.layered.size⟩ := hσ
    rw [hstack] at hbuild
    cases hbuild
    refine ⟨⟨hout.sound, ?_, ?_, ?_⟩, ?_⟩
    · exact fun g hg => (ha g hg).grow hout.quiet.grows
    · rw [← hl.groups]
    · exact hl.reserves hb hknown
    · exact hasKey_loose.trans (congrArg Option.isSome hout.empty)

theorem Call.Starts.reserving {call : Call} {g : GroupId} (hst : call.Starts h t g h') (hs : h.Sound)
    (ha : ∀ a ∈ call.context.ambient, h.Knows a) :
    h.Abstains h' ∧ ∃ n, h.groups.size ≤ n ∧ t.Reserving h.layered.size h' n := by
  obtain ⟨b, hi, hb⟩ := hst
  have hf : call.Fed ⟨h, 0⟩ b g := Call.fed hs ha hi
  have hkeeps := (Call.keeps_layout hi).1
  rw [hb] at hkeeps
  have hinputs : b.Knows (.plain g) := hf.knows _ (by simp [Call.layers])
  have hstack : (call.thread b.newStack.2).stack = b.newStack.2 := rfl
  obtain ⟨hreserving, _⟩ := Thread.buildStack_reserving hf.sound hstack
    (fun a hm => (ha a hm).grow hf.quiet.grows) hinputs hb
  rw [hf.layered] at hreserving
  exact ⟨.of_keeps hkeeps, b.groups.size, hf.quiet.grows.groups, hreserving⟩

end start

/-- At every heap that a call passes through, it has added no item under the reserved key to what
was there. -/
theorem Call.Passes.abstains (hh : host.Abstains) {call : Call} (hp : call.Passes host h h') :
    h.Sound → (∀ g ∈ call.context.ambient, h.Knows g) → h'.Sound ∧ h.Abstains h' := by
  refine Call.passes_induction
    (K := fun call h h' => h.Sound → (∀ g ∈ call.context.ambient, h.Knows g) →
      h'.Sound ∧ h.Abstains h')
    (I := fun call b t h => b.Sound → (∀ g ∈ call.context.ambient, b.Knows g) →
      b.Abstains h ∧ ∃ n, b.groups.size ≤ n ∧ t.Reserving b.layered.size h n) ?_ ?_ ?_ ?_ ?_ ?_ hp
  · exact fun _ h hs _ => ⟨hs, .refl h⟩
  · intro call h b g e h' hi hb hs ha
    have hkeeps := (Call.keeps_layout hi).1
    rw [hb] at hkeeps
    have hf : call.Fed ⟨h, 0⟩ b g := Call.fed hs ha hi
    exact ⟨(hf.unbuilt hb).1, .of_keeps hkeeps⟩
  · exact fun hst hs ha => hst.reserving hs ha
  · intro call b t h h' hinv hcalls hact hs ha
    obtain ⟨habstains, n, hn, ht⟩ := hinv hs ha
    obtain ⟨v, hd⟩ := hact.does
    rcases ht.does hh (fun inner hc h' hp => hcalls inner hc h' hp) hd with
      ⟨_, hs', a⟩ | ⟨w, _, hr⟩
    · exact ⟨habstains.trans a ht.sound, n, hn, ht.abstain hs' a⟩
    · obtain ⟨hp, ht'⟩ := ht.opened hr
      exact ⟨habstains.opened ht.sound ht.reserves hn hp (Thread.setReturn_insertable hr), n, hn,
        ht'⟩
  · intro call b t h hinv hs ha
    obtain ⟨habstains, n, _, ht⟩ := hinv hs ha
    exact ⟨ht.sound, habstains⟩
  · intro call b t h inner h' hinv hc hinner hs ha
    obtain ⟨habstains, n, _, ht⟩ := hinv hs ha
    obtain ⟨hs', a⟩ := hinner ht.sound (by
      rw [(Context.child_eq_ok.mp hc).2]
      exact ht.ambient)
    exact ⟨hs', habstains.trans a ht.sound⟩

/-- The key stands in the scratch layer once a value has been returned. -/
theorem Thread.Gives.reserving (hh : host.Abstains) (ht : t.Reserving older h n)
    (hempty : h.hasKey (.loose n) returnKey = false) {vs : List ObjectId}
    (hg : t.Gives host me h vs h') :
    t.Reserving older h' n ∧ (h'.hasKey (.loose n) returnKey = true ↔ vs ≠ []) := by
  induction hg with
  | start => exact ⟨ht, by simp [hempty]⟩
  | next hg hd ih =>
    obtain ⟨ht', hslot⟩ := ih
    rcases ht'.does hh (fun inner _ h' hp => hp.abstains hh) hd with ⟨rfl, hs, a⟩ | ⟨w, rfl, hr⟩
    · refine ⟨ht'.abstain hs a, ?_⟩
      rw [a.slots ht'.reserves.group, hslot, Option.toList_none, List.append_nil]
    · obtain ⟨hp, ht''⟩ := ht'.opened hr
      refine ⟨ht'', ?_⟩
      rw [hasKey_loose, hp.slot]
      simp

namespace Thread.Reserving

variable {v : ObjectId}

end Thread.Reserving

end

section
variable {host : Host} {me : ObjectId} {t : Thread} {h : Heap} {s s' : State}
variable {o : Outcome CommandError Unit} {es : List Entry} {vs : List ObjectId}

/-- Inside of a call that the thread makes, its scratch layer is as it was before the call. -/
theorem Thread.Traverses.reserving (hh : host.Abstains) {older n : Nat} (ht : t.Reserving older h n)
    (hempty : h.hasKey (.loose n) returnKey = false) {h' : Heap}
    (hp : t.Traverses host me h vs h') :
    t.Reserving older h' n ∧ (h'.hasKey (.loose n) returnKey = true ↔ vs ≠ []) := by
  cases hp with
  | between hg => exact hg.reserving hh ht hempty
  | inside hg hc hp =>
    obtain ⟨ht', hslot⟩ := hg.reserving hh ht hempty
    obtain ⟨hs, a⟩ := hp.abstains hh ht'.sound (by
      rw [(Context.child_eq_ok.mp hc).2]
      exact ht'.ambient)
    refine ⟨ht'.abstain hs a, ?_⟩
    rw [a.slots ht'.reserves.group]
    exact hslot

end

namespace Tray

/-! A host that takes the topmost layer off the stack of the thread, whatever it is asked. -/

def host : Host := ⟨fun _ frame s _ =>
  { result := .ok none, heap := (s.heap.pop frame.thread.stack).2 }⟩

def start : Thread := Vault.call.thread Vault.heap.newStack.2

def thread : Thread := { start with scratch := some (.loose 1) }

def heap : Heap := (start.buildStack Vault.heap.newStack.1 ⟨0⟩ (.linked [])).2

/-- Takes the scratch layer off, returns a value, and tries to return another one. -/
def commands : List Command :=
  [.native {} { name := "drop" } [],
   .attempt {}
     (.native {} { name := "drop" } [.ret {} (some (.this {})), .ret {} (some (.get {} "memo"))])
     (.ret {} none)]

def run : Reply CommandError State Unit :=
  runCommands host (thread.context.caller host) commands ⟨⟨0⟩, thread, []⟩
    ⟨⟨heap, 0⟩, .start commands.length⟩

end Tray

end GuardedScript
