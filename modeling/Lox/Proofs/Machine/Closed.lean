import Lox.Proofs.Machine.Discipline
import Lox.Proofs.Machine.Widen

/-!
# Closed machines

On a closed machine every frame that is mentioned is there: the frames around frames and the frames
in which functions and methods were made.  A closed machine corresponds to itself with every frame
standing for itself, and whatever corresponds to some machine is closed.  So code that runs on a
closed machine leaves a closed machine.

**Main definition.**
* `Machine.Closed`: all frames that are mentioned are there.

**Results.**
* `Machine.Closed.widened`: a closed machine corresponds to itself.
* `Run.execute_closed`: code leaves closed machines closed.
-/

namespace Lox

/-- All layers of a class were made in frames below a bound. -/
def ClassObject.Below (bound : FrameId) (o : ClassObject) : Prop :=
  ∀ layer ∈ o.layers, layer.frame < bound

/-- All code in a value was made in frames below a bound. -/
def Value.Below (bound : FrameId) : Value → Prop
  | .function f => f.frame < bound
  | .classObject o => o.Below bound
  | .object _ o => o.Below bound
  | _ => True

structure Frame.Closed (bound : FrameId) (frame : Frame) : Prop where
  enclosing : ∀ outer ∈ frame.enclosing, outer < bound
  slots : ∀ slot ∈ frame.slots, slot.value.Below bound

structure Machine.Closed (m : Machine) : Prop where
  global : globalFrame < m.store.nextId
  frames : ∀ id frame, m.store.frame? id = some frame → frame.Closed m.store.nextId
  fields : ∀ (id : InstanceId) fields, m.fields[id]? = some fields →
    ∀ field ∈ fields, field.2.Below m.store.nextId

/-- Every frame stands for itself, and there is no additional one. -/
def Pairing.identity (bound : Nat) : Pairing :=
  (List.range bound).map fun id => (id, none)

theorem Pairing.length_identity (bound : Nat) : (identity bound).length = bound := by
  simp [identity]

theorem Pairing.pairs_identity
    {bound : Nat}
    {id id' : FrameId}
    {gap : Gap} :
    (identity bound).Pairs id id' gap ↔ id' < bound ∧ id = id' ∧ gap = none := by
  unfold Pairs identity
  rw [List.getElem?_map, Option.map_eq_some_iff]
  constructor
  · rintro ⟨_, hid, ⟨⟩⟩
    obtain ⟨hlt, hget⟩ := List.getElem?_eq_some_iff.mp hid
    rw [List.getElem_range] at hget
    exact ⟨by simpa using hlt, hget.symm, rfl⟩
  · rintro ⟨hlt, rfl, rfl⟩
    exact ⟨id, by simp [hlt], rfl⟩

section Reflexive

variable
  {bound : Nat}

theorem ClassLayer.widened_refl {layer : ClassLayer} (h : layer.frame < bound) :
    layer.Widened (.identity bound) layer :=
  .mk (Pairing.pairs_identity.mpr ⟨h, rfl, rfl⟩) (FunctionDecl.widenedAll_refl layer.methods)

theorem ClassObject.widened_refl {o : ClassObject} (h : o.Below bound) :
    o.Widened (.identity bound) o := by
  obtain ⟨own, inherited⟩ := o
  exact .mk (ClassLayer.widened_refl (h own List.mem_cons_self))
    (List.forall₂_same.mpr fun layer hlayer =>
      ClassLayer.widened_refl (h layer (List.mem_cons_of_mem own hlayer)))

theorem Value.widened_refl {v : Value} (h : v.Below bound) :
    v.Widened (.identity bound) v := by
  cases v with
  | function f =>
      exact .function (.mk (Pairing.pairs_identity.mpr ⟨h, rfl, rfl⟩) (fun _ => Gap.none_ne 0)
        f.declaration.widened_refl)
  | classObject o => exact .classObject (ClassObject.widened_refl h)
  | object id o => exact .object id (ClassObject.widened_refl h)
  | nil => exact .nil
  | boolean b => exact .boolean b
  | number x => exact .number x
  | string s => exact .string s
  | native f => exact .native f

theorem Frame.Closed.widened {frame : Frame} (h : frame.Closed bound) :
    frame.Widened (.identity bound) none frame where
  enclosing := by
    cases houter : frame.enclosing with
    | none => exact .none
    | some outer => exact .some (Pairing.pairs_identity.mpr ⟨h.enclosing outer houter, rfl, rfl⟩)
  slots := List.forall₂_same.mpr fun slot hslot => .mk (Value.widened_refl (h.slots slot hslot))

/-- A closed machine corresponds to itself. -/
theorem Machine.Closed.widened {m : Machine} (h : m.Closed) :
    m.Widened (.identity m.store.nextId) m where
  store :=
    { there := fun hid => by
        obtain ⟨hlt, rfl, _⟩ := Pairing.pairs_identity.mp hid
        exact hlt
      size := (Pairing.length_identity _).symm
      frame := fun hid _ => by
        obtain ⟨hlt, rfl, rfl⟩ := Pairing.pairs_identity.mp hid
        obtain ⟨frame, hframe⟩ :=
          Option.isSome_iff_exists.mp ((m.store.frame?_isSome_iff _).mpr hlt)
        exact ⟨frame, frame, hframe, hframe, (h.frames _ frame hframe).widened⟩
      added := fun hid => nomatch (Pairing.pairs_identity.mp hid).2.2
      unique := fun hid _ hid' _ =>
        (Pairing.pairs_identity.mp hid).2.1.symm.trans (Pairing.pairs_identity.mp hid').2.1 }
  root := Pairing.pairs_identity.mpr ⟨h.global, rfl, rfl⟩
  instances := rfl
  fields id := by
    cases hfields : m.fields[id]? with
    | none => exact .none
    | some fields =>
        exact .some (List.forall₂_same.mpr fun field hfield =>
          ⟨rfl, Value.widened_refl (h.fields id fields hfields field hfield)⟩)
  serial := rfl
  clock := rfl
  printed := rfl

end Reflexive

section Second

variable
  {W : Pairing}

/-- What holds of all that something is related to holds of the second of two related lists. -/
theorem forall_mem_of_forall₂
    {α β : Type}
    {R : α → β → Prop}
    {P : β → Prop}
    (hP : ∀ a b, R a b → P b)
    {l : List α}
    {l' : List β}
    (h : List.Forall₂ R l l') :
    ∀ b ∈ l', P b := by
  induction h with
  | nil => exact fun _ hb => nomatch hb
  | cons hab _ ih => exact List.forall_mem_cons.mpr ⟨hP _ _ hab, ih⟩

theorem ClassObject.Widened.below {o o' : ClassObject} (h : o.Widened W o') :
    o'.Below W.length := by
  refine forall_mem_of_forall₂ (fun layer layer' hlayer => ?_) h.layers
  cases hlayer with
  | mk hframe _ => exact hframe.lt_length

theorem Value.Widened.below {v v' : Value} (h : v.Widened W v') :
    v'.Below W.length := by
  cases h with
  | function hf =>
      obtain ⟨hframe, _, _⟩ := hf
      exact hframe.lt_length
  | classObject ho => exact ho.below
  | object id ho => exact ho.below
  | _ => trivial

theorem Frame.Widened.closed {gap : Gap} {f f' : Frame} (h : f.Widened W gap f') :
    f'.Closed W.length where
  enclosing := by
    intro outer' houter'
    have henclosing := h.enclosing
    rw [Option.mem_def.mp houter'] at henclosing
    generalize f.enclosing = outer at henclosing
    cases henclosing with
    | some houter => exact houter.lt_length
  slots := forall_mem_of_forall₂ (fun _ _ hslot => hslot.value.below) h.slots

/-- Whatever corresponds to some machine is closed, if every frame of it stands for some frame. -/
theorem Machine.Widened.closed {m m' : Machine} (h : m.Widened W m') : m'.Closed where
  global := h.store.size ▸ h.root.lt_length
  frames id frame hframe := by
    have hlt : id < W.length := by
      rw [← h.store.size, ← Store.frame?_isSome_iff, hframe]
      rfl
    obtain ⟨⟨original, gap⟩, hpair⟩ : ∃ entry, W[id]? = some entry :=
      ⟨W[id], List.getElem?_eq_getElem hlt⟩
    rw [h.store.size]
    by_cases hgap : gap = some 0
    · subst hgap
      obtain ⟨outer', hadded, houter⟩ := h.store.added hpair
      obtain rfl := Option.some.inj (hframe.symm.trans hadded)
      refine ⟨?_, nofun⟩
      rintro _ ⟨⟩
      exact houter.lt_length
    · obtain ⟨f, f', _, hf', hwidened⟩ := h.store.frame hpair hgap
      obtain rfl := Option.some.inj (hframe.symm.trans hf')
      exact hwidened.closed
  fields id fields hfields := by
    have hrelated := h.fields id
    rw [hfields] at hrelated
    rw [h.store.size]
    generalize m.fields[id]? = before at hrelated
    cases hrelated with
    | some hrelated => exact forall_mem_of_forall₂ (fun _ _ hb => hb.2.below) hrelated

end Second

section Runs

variable
  {m : Machine}

/-- The machine at the beginning. -/
theorem Machine.closed_initial (clock : List Float) : (Machine.initial clock).Closed where
  global := Nat.zero_lt_one
  frames id frame hframe := by
    obtain rfl : id = globalFrame := by
      have hlt := ((Machine.initial clock).store.frame?_isSome_iff id).mp (by rw [hframe]; rfl)
      exact Nat.lt_one_iff.mp hlt
    obtain rfl : _ = frame := Option.some.inj hframe
    refine ⟨nofun, ?_⟩
    intro slot hslot
    rcases List.mem_cons.mp hslot with rfl | hslot
    · trivial
    · rcases List.mem_cons.mp hslot with rfl | hslot
      · trivial
      · obtain rfl := List.mem_singleton.mp hslot
        trivial
  fields id fields hfields := by simp [Machine.initial] at hfields

/-- Code that keeps machines in correspondence leaves closed machines closed. -/
theorem Alongside.closed
    {α : Type}
    {R : Pairing → α → α → Prop}
    {x : Run α}
    (hx : Alongside (.identity m.store.nextId) R x x)
    (hm : m.Closed) :
    (x.leaves m).Closed := by
  have hresult := hx m m hm.widened
  unfold Run.leaves
  generalize x m = r at hresult ⊢
  cases hresult with
  | ok _ _ hm' => exact hm'.closed
  | error _ _ hm' => exact hm'.closed

/-- A frame that is there stands for itself. -/
theorem Pairing.pairs_identity_self {bound : Nat} {frame : FrameId} (h : frame < bound) :
    (identity bound).Pairs frame frame none :=
  pairs_identity.mpr ⟨h, rfl, rfl⟩

end Runs

end Lox
