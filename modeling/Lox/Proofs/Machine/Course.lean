import Lox.Proofs.Machine.Faults

/-!
# The course of a run

A run leads from a machine through moments to a last machine.  At each moment the machine is sound,
and an expression is evaluated at the site where resolution came to it; between two moments the
store grows.  `Keeps` says this of a piece of code together with what holds of its result, and is
put together along the structure of the code.

**Results.**
* `Course.split`: the part of a run up to a moment, and the part from that moment on.
* `Keeps.bind`: code after code.
-/

namespace Lox

variable (accepted : List Stmt → Prop)

/-- An expression is evaluated in a frame that mirrors the site where resolution came to it. -/
def EvaluatesAt
    (H : History)
    (store : Store)
    (f : FrameId)
    (e : Expr) : Prop :=
  ∃ program p source,
    accepted program
      ∧ Reaches program p (.expression source)
      ∧ e = source.resolve p.context
      ∧ Present H store f p source

/-- At a moment the machine is sound, and what is evaluated stands where resolution came to it. -/
structure Moment.Fine
    (H : History)
    (x : Moment) : Prop where
  sound : Sound accepted H x.machine
  evaluates : ∀ f e, x.act = .evaluates f e → EvaluatesAt accepted H x.machine.store f e

/-- What a declaration binds is bound afterwards. -/
def Moment.Done
    (x : Moment)
    (store : Store) : Prop :=
  ∀ f name constant, x.act = .binds f name constant → store.flag? f name = some constant

/-- A run leads from a machine through moments to another machine. -/
inductive Course : History → Machine → History → Machine → Prop
  | quiet {H : History} {m m' : Machine} :
      Grows [] m.store m'.store → Course H m [] m'
  | moment {H L : History} {x : Moment} {m m₁ m' : Machine} :
      Grows [] m.store x.machine.store →
      x.Fine accepted H →
      Grows [x] x.machine.store m₁.store →
      x.Done m₁.store →
      Course (H ++ [x]) m₁ L m' →
      Course H m (x :: L) m'

variable {accepted}

namespace Course

variable {H L : History} {m m' : Machine}

theorem grows (h : Course accepted H m L m') : Grows L m.store m'.store := by
  induction h with
  | quiet hgrows => exact hgrows
  | moment hbefore _ hafter _ _ ih => exact hbefore.trans (hafter.trans ih)

/-- A change of the machine without any moment can come first. -/
theorem quiet_trans
    {m₀ : Machine}
    (hquiet : Grows [] m₀.store m.store)
    (h : Course accepted H m L m') :
    Course accepted H m₀ L m' := by
  cases h with
  | quiet hgrows => exact .quiet (hquiet.trans hgrows)
  | moment hbefore hfine hafter hdone hrest =>
      exact .moment (hquiet.trans hbefore) hfine hafter hdone hrest

theorem trans
    {L' : History}
    {m'' : Machine}
    (h : Course accepted H m L m')
    (h' : Course accepted (H ++ L) m' L' m'') :
    Course accepted H m (L ++ L') m'' := by
  induction h with
  | quiet hgrows => exact quiet_trans hgrows (by simpa using h')
  | moment hbefore hfine hafter hdone _ ih =>
      exact .moment hbefore hfine hafter hdone (ih (by simpa using h'))

/-- The part of a run up to a moment, the moment itself, and the part from the moment on. -/
theorem split
    {A B : History}
    {x : Moment}
    (h : Course accepted H m (A ++ x :: B) m') :
    Course accepted H m A x.machine
      ∧ x.Fine accepted (H ++ A)
      ∧ Course accepted (H ++ A) x.machine (x :: B) m' := by
  induction A generalizing H m with
  | nil =>
      cases h with
      | moment hbefore hfine hafter hdone hrest =>
          refine ⟨.quiet hbefore, by simpa using hfine, ?_⟩
          exact .moment (.refl _) (by simpa using hfine) hafter hdone (by simpa using hrest)
  | cons y A ih =>
      cases h with
      | moment hbefore hfine hafter hdone hrest =>
          obtain ⟨hfirst, hx, hlast⟩ := ih hrest
          exact ⟨.moment hbefore hfine hafter hdone hfirst, by simpa using hx, by simpa using hlast⟩

end Course

variable (accepted)

/--
Code leads from a sound machine through fine moments to a sound machine.  Of the frames that are
there before, declarations bind names only in those given, and what the code results in has the
property given.  If the code is interrupted, the interruption is an expected one.
-/
structure Keeps
    {α : Type}
    (x : Recorded α)
    (H : History)
    (m : Machine)
    (declaring : FrameId → Prop)
    (Q : α → History → Machine → Prop) : Prop where
  course : Course accepted H m (x m).1 (x.final m)
  sound : Sound accepted (H ++ (x m).1) (x.final m)
  binds : ∀ f < m.store.nextId, ∀ name, Binds (x m).1 f name → declaring f
  result : ∀ a m', (x m).2 = .ok a m' → Q a (H ++ (x m).1) m'
  stops : ∀ interrupt m', (x m).2 = .error interrupt m' →
    interrupt.Expected accepted (H ++ (x m).1)

variable {accepted}

/-- What is known after a piece of code: the moments and the machine it led to. -/
structure Later
    (accepted : List Stmt → Prop)
    (declaring : FrameId → Prop)
    (H : History)
    (m : Machine)
    (H' : History)
    (m' : Machine) : Prop where
  sound : Sound accepted H' m'
  grows : ∃ L, H' = H ++ L ∧ Grows L m.store m'.store
    ∧ ∀ f < m.store.nextId, ∀ name, Binds L f name → declaring f

/-- No frame that is there gets new names. -/
def nowhere : FrameId → Prop := fun _ => False

namespace Later

variable {declaring : FrameId → Prop} {H H' : History} {m m' : Machine}

theorem refl (hsound : Sound accepted H m) : Later accepted declaring H m H m :=
  ⟨hsound, [], by simp, .refl _, fun _ _ _ hb => absurd hb (binds_nil _ _)⟩

theorem size (h : Later accepted declaring H m H' m') : m.store.nextId ≤ m'.store.nextId := by
  obtain ⟨_, L, _, hgrows, _⟩ := h
  exact hgrows.size

theorem value
    (h : Later accepted declaring H m H' m')
    {v : Value}
    (hv : ValueFits accepted H m.store v) :
    ValueFits accepted H' m'.store v := by
  obtain ⟨_, L, rfl, hgrows, _⟩ := h
  exact hv.grow (List.prefix_append H L) hgrows

theorem classFits
    (h : Later accepted declaring H m H' m')
    {c : ClassObject}
    (hc : ClassFits accepted H m.store c) :
    ClassFits accepted H' m'.store c := by
  obtain ⟨_, L, rfl, hgrows, _⟩ := h
  exact hc.grow (List.prefix_append H L) hgrows

theorem fits
    (h : Later accepted declaring H m H' m')
    {f : FrameId}
    {scopes : List Scope}
    {os : List Opening}
    (hfits : Fits H m.store f scopes os) :
    Fits H' m'.store f scopes os := by
  obtain ⟨_, L, rfl, hgrows, _⟩ := h
  exact hfits.grow (List.prefix_append H L) hgrows

/-- Code goes on standing in its frame if that frame got no new names. -/
theorem stands
    (h : Later accepted declaring H m H' m')
    (hsound : Sound accepted H m)
    {f : FrameId}
    {p : Site}
    (hf : ¬ declaring f)
    (hstands : Stands H m.store f p) :
    Stands H' m'.store f p := by
  obtain ⟨_, L, rfl, hgrows, hbinds⟩ := h
  have hthere := hstands.fits.lt_nextId hsound.global
  exact hstands.grow (List.prefix_append H L) hgrows hsound.global fun name hb =>
    hf (hbinds f hthere name hb)

/-- An expression goes on being present if no names are declared. -/
theorem present
    (h : Later accepted nowhere H m H' m')
    (hsound : Sound accepted H m)
    {f : FrameId}
    {p : Site}
    {e : Expr}
    (hpresent : Present H m.store f p e) :
    Present H' m'.store f p e := by
  cases hpresent with
  | here hstands => exact .here (h.stands hsound (fun h => h) hstands)
  | superclass hstands hne => exact .superclass (h.stands hsound (fun h => h) hstands) hne

/-- A link goes on leading to the same frame. -/
theorem ancestor?
    (h : Later accepted declaring H m H' m')
    {f g : FrameId}
    {d : Nat}
    (hancestor : m.store.ancestor? f d = some g) :
    m'.store.ancestor? f d = some g := by
  obtain ⟨_, L, _, hgrows, _⟩ := h
  exact hgrows.ancestor? hancestor

/-- A frame that got no new names binds what it did before. -/
theorem flag?_eq
    (h : Later accepted declaring H m H' m')
    {f : FrameId}
    (hthere : f < m.store.nextId)
    (hf : ¬ declaring f)
    (name : String) :
    m'.store.flag? f name = m.store.flag? f name := by
  obtain ⟨_, L, rfl, hgrows, hbinds⟩ := h
  exact hgrows.flag?_eq hthere fun hb => hf (hbinds f hthere name hb)

end Later

namespace Keeps

variable {α β : Type} {H : History} {m : Machine} {declaring : FrameId → Prop}

theorem later
    {x : Recorded α}
    {Q : α → History → Machine → Prop}
    (h : Keeps accepted x H m declaring Q)
    {a : α}
    {m' : Machine}
    (ha : (x m).2 = .ok a m') :
    Later accepted declaring H m (H ++ (x m).1) m' := by
  have hfinal : x.final m = m' := by simp [Recorded.final, ha]
  refine ⟨hfinal ▸ h.sound, (x m).1, rfl, ?_, h.binds⟩
  exact hfinal ▸ h.course.grows

theorem pure
    {a : α}
    {Q : α → History → Machine → Prop}
    (hsound : Sound accepted H m)
    (ha : Q a H m) :
    Keeps accepted (pure a : Recorded α) H m declaring Q where
  course := .quiet (.refl _)
  sound := by simpa [Pure.pure, Recorded.final] using hsound
  binds _ _ _ hb := absurd hb (binds_nil _ _)
  result b m' hb := by
    cases hb
    simpa [Pure.pure] using ha
  stops _ _ hb := by cases hb

/-- Code after code.  Names may be declared in frames that the first piece of code has added. -/
theorem bind
    {x : Recorded α}
    {f : α → Recorded β}
    {first inner : FrameId → Prop}
    {Q : α → History → Machine → Prop}
    {R : β → History → Machine → Prop}
    (hx : Keeps accepted x H m first Q)
    (hfirst : ∀ g < m.store.nextId, first g → declaring g)
    (hinner : ∀ g < m.store.nextId, inner g → declaring g)
    (hf : ∀ a H' m', Later accepted first H m H' m' → Q a H' m' →
      Keeps accepted (f a) H' m' inner R) :
    Keeps accepted (x >>= f) H m declaring R := by
  cases hout : (x m).2 with
  | error interrupt m' =>
      have hrun : (x >>= f) m = ((x m).1, .error interrupt m') := by
        simp [Bind.bind, Recorded.andThen, hout]
      have hfinal : (x >>= f).final m = x.final m := by simp [Recorded.final, hrun, hout]
      refine ⟨?_, ?_, ?_, fun b m'' hb => ?_, fun interrupt' m'' hb => ?_⟩
      · rw [hfinal, hrun]
        exact hx.course
      · rw [hfinal, hrun]
        exact hx.sound
      · rw [hrun]
        exact fun g hg name hb => hfirst g hg (hx.binds g hg name hb)
      · rw [hrun] at hb
        cases hb
      · rw [hrun] at hb ⊢
        cases hb
        exact hx.stops interrupt m' hout
  | ok a m' =>
      have hrun : (x >>= f) m = ((x m).1 ++ (f a m').1, (f a m').2) := by
        simp [Bind.bind, Recorded.andThen, hout]
      have hfinal : (x >>= f).final m = (f a).final m' := by simp [Recorded.final, hrun]
      have hlater := hx.later hout
      have hnext := hf a _ m' hlater (hx.result a m' hout)
      have hcourse : Course accepted H m (x m).1 m' := by
        simpa [Recorded.final, hout] using hx.course
      refine ⟨?_, ?_, ?_, fun b m'' hb => ?_, fun interrupt m'' hb => ?_⟩
      · rw [hfinal, hrun]
        exact hcourse.trans hnext.course
      · rw [hfinal, hrun, ← List.append_assoc]
        exact hnext.sound
      · rw [hrun]
        intro g hg name hb
        rcases binds_append.mp hb with hb | hb
        · exact hfirst g hg (hx.binds g hg name hb)
        · exact hinner g hg (hnext.binds g (Nat.lt_of_lt_of_le hg hlater.size) name hb)
      · rw [hrun] at hb ⊢
        rw [← List.append_assoc]
        exact hnext.result b m'' hb
      · rw [hrun] at hb ⊢
        rw [← List.append_assoc]
        exact hnext.stops interrupt m'' hb

/-- Code after code that declares no names. -/
theorem next
    {x : Recorded α}
    {f : α → Recorded β}
    {Q : α → History → Machine → Prop}
    {R : β → History → Machine → Prop}
    (hx : Keeps accepted x H m nowhere Q)
    (hf : ∀ a H' m', Later accepted nowhere H m H' m' → Q a H' m' →
      Keeps accepted (f a) H' m' declaring R) :
    Keeps accepted (x >>= f) H m declaring R :=
  hx.bind (fun _ _ h => h.elim) (fun _ _ h => h) hf

/-- Code that declares no names after code that does. -/
theorem followed
    {x : Recorded α}
    {f : α → Recorded β}
    {Q : α → History → Machine → Prop}
    {R : β → History → Machine → Prop}
    (hx : Keeps accepted x H m declaring Q)
    (hf : ∀ a H' m', Later accepted declaring H m H' m' → Q a H' m' →
      Keeps accepted (f a) H' m' nowhere R) :
    Keeps accepted (x >>= f) H m declaring R :=
  hx.bind (fun _ _ h => h) (fun _ _ h => h.elim) hf

/-- Code that declares names in new frames alone, after code that declares none. -/
theorem inside
    {x : Recorded α}
    {f : α → Recorded β}
    {Q : α → History → Machine → Prop}
    {R : β → History → Machine → Prop}
    (hx : Keeps accepted x H m nowhere Q)
    (hf : ∀ a H' m', Later accepted nowhere H m H' m' → Q a H' m' →
      Keeps accepted (f a) H' m' (fun g => m.store.nextId ≤ g) R) :
    Keeps accepted (x >>= f) H m nowhere R :=
  hx.bind (fun _ _ h => h) (fun _ hg hnew => absurd hg (Nat.not_lt_of_le hnew)) hf

/-- An operation of the machine is no moment of its own. -/
theorem perform
    {x : Run α}
    {Q : α → History → Machine → Prop}
    (hok : ∀ a m', x m = .ok a m' →
      Grows [] m.store m'.store ∧ Sound accepted H m' ∧ Q a H m')
    (herror : ∀ interrupt m', x m = .error interrupt m' →
      Grows [] m.store m'.store ∧ Sound accepted H m' ∧ interrupt.Expected accepted H) :
    Keeps accepted (Watch.perform x) H m declaring Q := by
  have hrun : (Watch.perform x : Recorded α) m = ([], x m) := rfl
  cases hout : x m with
  | ok a m' =>
      obtain ⟨hgrows, hsound, hresult⟩ := hok a m' hout
      refine ⟨?_, ?_, ?_, fun b m'' hb => ?_, fun interrupt m'' hb => ?_⟩
      · simpa [Recorded.final, hrun, hout] using Course.quiet hgrows
      · simpa [Recorded.final, hrun, hout] using hsound
      · rw [hrun]
        exact fun _ _ _ hb => absurd hb (binds_nil _ _)
      · rw [hrun, hout] at hb
        cases hb
        simpa [hrun] using hresult
      · rw [hrun, hout] at hb
        cases hb
  | error interrupt m' =>
      obtain ⟨hgrows, hsound, hexpected⟩ := herror interrupt m' hout
      refine ⟨?_, ?_, ?_, fun b m'' hb => ?_, fun interrupt' m'' hb => ?_⟩
      · simpa [Recorded.final, hrun, hout] using Course.quiet hgrows
      · simpa [Recorded.final, hrun, hout] using hsound
      · rw [hrun]
        exact fun _ _ _ hb => absurd hb (binds_nil _ _)
      · rw [hrun, hout] at hb
        cases hb
      · rw [hrun, hout] at hb
        cases hb
        simpa [hrun] using hexpected

/-- A property of results can be weakened, and more frames be allowed to get new names. -/
theorem mono
    {x : Recorded α}
    {declaring' : FrameId → Prop}
    {Q R : α → History → Machine → Prop}
    (h : Keeps accepted x H m declaring Q)
    (hdeclaring : ∀ g < m.store.nextId, declaring g → declaring' g)
    (hQR : ∀ a H' m', Later accepted declaring H m H' m' → Q a H' m' → R a H' m') :
    Keeps accepted x H m declaring' R where
  course := h.course
  sound := h.sound
  binds g hg name hb := hdeclaring g hg (h.binds g hg name hb)
  result a m' ha := hQR a _ m' (h.later ha) (h.result a m' ha)
  stops := h.stops

/-- What is known of a result includes how the code came to it. -/
theorem exactly
    {x : Recorded α}
    {Q : α → History → Machine → Prop}
    (h : Keeps accepted x H m declaring Q) :
    Keeps accepted x H m declaring fun a H' m' =>
      Q a H' m' ∧ H' = H ++ (x m).1 ∧ (x m).2 = .ok a m' where
  course := h.course
  sound := h.sound
  binds := h.binds
  result a m' ha := ⟨h.result a m' ha, rfl, ha⟩
  stops := h.stops

/-- A function of the result. -/
theorem map
    {x : Recorded α}
    {f : α → β}
    {Q : α → History → Machine → Prop}
    {R : β → History → Machine → Prop}
    (h : Keeps accepted x H m declaring Q)
    (hQR : ∀ a H' m', Later accepted declaring H m H' m' → Q a H' m' → R (f a) H' m') :
    Keeps accepted (f <$> x) H m declaring R :=
  h.followed fun a H' m' hlater ha => .pure hlater.sound (hQR a H' m' hlater ha)

end Keeps

end Lox
