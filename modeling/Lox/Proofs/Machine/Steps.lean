import Lox.Proofs.Machine.Course

/-!
# Steps of running code

What the single steps of running code do to a sound machine: they look something up, change a slot
or a field, open a frame, or bind the name of a declaration.
-/

namespace Lox

section Looking

variable {α β : Type}

theorem Run.bind_of_ok
    {x : Run α}
    {m m' : Machine}
    {a : α}
    (h : x m = .ok a m')
    (f : α → Run β) :
    (x >>= f) m = f a m' := by
  change EStateM.bind x f m = f a m'
  simp [EStateM.bind, h]

theorem Run.bind_of_error
    {x : Run α}
    {m m' : Machine}
    {interrupt : Interrupt}
    (h : x m = .error interrupt m')
    (f : α → Run β) :
    (x >>= f) m = .error interrupt m' := by
  change EStateM.bind x f m = .error interrupt m'
  simp [EStateM.bind, h]

/--
An operation leaves the machine as it is, and its result or the interruption has a property.
-/
def Looks
    (x : Run α)
    (m : Machine)
    (P : α → Prop)
    (E : Interrupt → Prop) : Prop :=
  (∀ a m', x m = .ok a m' → m' = m ∧ P a)
    ∧ ∀ interrupt m', x m = .error interrupt m' → m' = m ∧ E interrupt

theorem looks_pure
    {m : Machine}
    {P : α → Prop}
    {E : Interrupt → Prop}
    {a : α}
    (h : P a) :
    Looks (pure a) m P E := by
  refine ⟨fun b m' hb => ?_, fun interrupt m' hb => ?_⟩
  · cases hb
    exact ⟨rfl, h⟩
  · cases hb

theorem looks_throw
    {m : Machine}
    {P : α → Prop}
    {E : Interrupt → Prop}
    {interrupt : Interrupt}
    (h : E interrupt) :
    Looks (throw interrupt) m P E := by
  refine ⟨fun b m' hb => ?_, fun interrupt m' hb => ?_⟩
  · cases hb
  · cases hb
    exact ⟨rfl, h⟩

theorem looks_bind
    {x : Run α}
    {f : α → Run β}
    {m : Machine}
    {P : α → Prop}
    {Q : β → Prop}
    {E : Interrupt → Prop}
    (hx : Looks x m P E)
    (hf : ∀ a, P a → Looks (f a) m Q E) :
    Looks (x >>= f) m Q E := by
  cases hout : x m with
  | ok a m₁ =>
      obtain ⟨rfl, ha⟩ := hx.1 a m₁ hout
      have hrun : (x >>= f) m₁ = f a m₁ := Run.bind_of_ok hout f
      exact ⟨fun b m' hb => (hf a ha).1 b m' (hrun ▸ hb),
        fun interrupt m' hb => (hf a ha).2 interrupt m' (hrun ▸ hb)⟩
  | error interrupt m₁ =>
      have hm := hx.2 interrupt m₁ hout
      have hrun : (x >>= f) m = .error interrupt m₁ := Run.bind_of_error hout f
      refine ⟨fun b m' hb => ?_, fun interrupt' m' hb => ?_⟩
      · rw [hrun] at hb
        cases hb
      · rw [hrun] at hb
        cases hb
        exact hm

theorem looks_mono
    {x : Run α}
    {m : Machine}
    {P Q : α → Prop}
    {E F : Interrupt → Prop}
    (h : Looks x m P E)
    (hPQ : ∀ a, P a → Q a)
    (hEF : ∀ interrupt, E interrupt → F interrupt) :
    Looks x m Q F :=
  ⟨fun a m' ha => (h.1 a m' ha).imp_right (hPQ a),
    fun interrupt m' ha => (h.2 interrupt m' ha).imp_right (hEF interrupt)⟩

theorem looks_get
    {E : Interrupt → Prop}
    (m : Machine) :
    Looks (get : Run Machine) m (fun m' => m' = m) E := by
  refine ⟨fun b m' hb => ?_, fun interrupt m' hb => ?_⟩
  · cases hb
    exact ⟨rfl, rfl⟩
  · cases hb

theorem looks_ofExcept
    {m : Machine}
    {P : α → Prop}
    {E : Interrupt → Prop}
    {place : Token}
    {result : Except RuntimeFault α}
    (h : ∀ a, result = .ok a → P a)
    (hfault : ∀ fault, result = .error fault → E (.error ⟨fault, some place.line⟩)) :
    Looks (Run.ofExcept place result) m P E := by
  cases result with
  | ok a => exact looks_pure (h a rfl)
  | error fault => exact looks_throw (hfault fault rfl)

/-- An access to a name is interrupted as foreseen, unless it goes too far. -/
theorem looks_ofAccess
    {m : Machine}
    {P : α → Prop}
    {E : Interrupt → Prop}
    (place : Token)
    {result : Except AccessFault α}
    (h : ∀ a, result = .ok a → P a)
    (hordinary : ∀ interrupt, interrupt.Ordinary → E interrupt)
    (hshort : ∀ distance, result = .error (.shortChain distance) → E (.shortChain distance)) :
    Looks (Run.ofAccess place result) m P E := by
  cases result with
  | ok a => exact looks_pure (h a rfl)
  | error fault =>
      cases fault with
      | undefined name =>
          exact looks_throw (hordinary _ (.fault (.undefinedVariable name) trivial (by simp)))
      | shortChain distance => exact looks_throw (hshort distance rfl)

theorem Store.findAt_ne_shortChain
    {store : Store}
    {frame : FrameId}
    {distance : Nat}
    (h : (store.ancestor? frame distance).isSome)
    {name : String}
    {d : Nat} :
    store.findAt frame distance name ≠ .error (.shortChain d) := by
  obtain ⟨g, hg⟩ := Option.isSome_iff_exists.mp h
  simp only [Store.findAt, hg]
  cases store.slot? g name <;> simp

/-- The slot of a name at a distance is a slot of the frame at that distance. -/
theorem looks_findAt
    (m : Machine)
    (frame : FrameId)
    (distance : Nat)
    (name : String)
    (place : Token) :
    Looks (Run.findAt frame distance name place) m
      (fun found => m.store.ancestor? frame distance = some found.1
        ∧ m.store.slot? found.1 name = some found.2)
      fun interrupt => (m.store.ancestor? frame distance).isSome → interrupt.Ordinary := by
  refine looks_bind (looks_get m) fun m' hm' => looks_ofAccess place (fun found hfound => ?_)
    (fun _ h _ => h) fun d hd hsome => ?_
  · subst hm'
    exact Store.findAt_eq_ok hfound
  · subst hm'
    exact absurd hd (Store.findAt_ne_shortChain hsome)

/-- The frame to which a link leads: without a distance it is the global one. -/
def Link.leadsTo?
    (link : Link)
    (store : Store)
    (frame : FrameId) : Option FrameId :=
  match link.depth with
  | some distance => store.ancestor? frame distance
  | none => some globalFrame

/-- The frames outward from the global one are the global one. -/
theorem Store.holder?_globalFrame
    {store : Store}
    (hroot : store.enclosing? globalFrame = none)
    {name : String}
    {found : FrameId × Slot}
    (h : store.holder? name globalFrame = some found) :
    found.1 = globalFrame ∧ store.slot? globalFrame name = some found.2 := by
  rw [Store.holder?, hroot] at h
  split at h
  · next slot hslot =>
      cases h
      exact ⟨rfl, hslot⟩
  · cases h

/-- The slot of a name with its link is a slot of the frame to which the link leads. -/
theorem looks_locate
    {m : Machine}
    (hroot : m.store.enclosing? globalFrame = none)
    (frame : FrameId)
    (name : Token)
    (link : Link) :
    Looks (Run.locate frame name link) m
      (fun found => link.leadsTo? m.store frame = some found.1
        ∧ m.store.slot? found.1 name.lexeme = some found.2)
      fun interrupt => (link.leadsTo? m.store frame).isSome → interrupt.Ordinary := by
  unfold Run.locate Link.leadsTo?
  cases link.depth with
  | some distance => exact looks_findAt m frame distance name.lexeme name
  | none =>
      refine looks_bind (looks_get m) fun m' hm' => looks_ofAccess name (fun found hfound => ?_)
        (fun _ h _ => h) fun d hd _ => ?_
      · subst hm'
        unfold Store.find at hfound
        split at hfound
        · next holder hholder =>
            cases hfound
            obtain ⟨hglobal, hslot⟩ := Store.holder?_globalFrame hroot hholder
            exact ⟨by rw [hglobal], by rw [hglobal]; exact hslot⟩
        · cases hfound
      · unfold Store.find at hd
        split at hd <;> cases hd

end Looking

variable {accepted : List Stmt → Prop}

section Keeping

variable {α : Type} {H : History} {m : Machine} {declaring : FrameId → Prop}

/-- Looking something up changes nothing. -/
theorem Keeps.look
    {x : Run α}
    {P : α → Prop}
    (hsound : Sound accepted H m)
    (h : Looks x m P Interrupt.Ordinary) :
    Keeps accepted (Watch.perform x) H m declaring fun a _ _ => P a := by
  refine .perform (fun a m' ha => ?_) fun interrupt m' ha => ?_
  · obtain ⟨rfl, hP⟩ := h.1 a m' ha
    exact ⟨.refl _, hsound, hP⟩
  · obtain ⟨rfl, hordinary⟩ := h.2 interrupt m' ha
    exact ⟨.refl _, hsound, .ordinary hordinary⟩

/-- A run that is stopped changes nothing. -/
theorem Keeps.stop
    {Q : α → History → Machine → Prop}
    (hsound : Sound accepted H m)
    {interrupt : Interrupt}
    (hexpected : interrupt.Expected accepted H) :
    Keeps accepted (Watch.perform (throw interrupt)) H m declaring Q := by
  refine .perform (fun a m' ha => ?_) fun interrupt' m' ha => ?_
  · cases ha
  · cases ha
    exact ⟨.refl _, hsound, hexpected⟩

/-- A fault that the language foresees. -/
theorem Keeps.fail
    {Q : α → History → Machine → Prop}
    (hsound : Sound accepted H m)
    (fault : RuntimeFault)
    (hdocumented : fault.Documented)
    (hfault : fault ≠ .superclassNotClass)
    (place : Token) :
    Keeps accepted (Watch.perform (Run.fail fault place)) H m declaring Q :=
  .stop hsound (.ordinary (.fault fault hdocumented hfault))

/-- A value that is looked up fits. -/
theorem Keeps.lookValue
    {x : Run Value}
    (hsound : Sound accepted H m)
    (h : Looks x m (ValueFits accepted H m.store) Interrupt.Ordinary) :
    Keeps accepted (Watch.perform x) H m declaring fun v H' m' =>
      ValueFits accepted H' m'.store v :=
  (Keeps.look hsound h).mono (fun _ _ h => h) fun _ _ _ hlater hv => hlater.value hv

theorem Keeps.readName
    (hsound : Sound accepted H m)
    {frame : FrameId}
    (name : Token)
    {link : Link}
    (hleads : (link.leadsTo? m.store frame).isSome) :
    Keeps accepted (Watch.perform (Run.readName frame name link)) H m declaring fun v H' m' =>
      ValueFits accepted H' m'.store v :=
  .lookValue hsound <| looks_bind
    (looks_mono (looks_locate hsound.root frame name link) (fun _ h => h) fun _ h => h hleads)
    fun _ hfound => looks_pure (hsound.slots _ _ _ hfound.2)

theorem Keeps.getAt
    (hsound : Sound accepted H m)
    {frame : FrameId}
    {distance : Nat}
    (hancestor : (m.store.ancestor? frame distance).isSome)
    (name : String)
    (place : Token) :
    Keeps accepted (Watch.perform (Run.getAt frame distance name place)) H m declaring
      fun v H' m' => ValueFits accepted H' m'.store v :=
  .lookValue hsound <| looks_bind
    (looks_mono (looks_findAt m frame distance name place) (fun _ h => h) fun _ h => h hancestor)
    fun _ hfound => looks_pure (hsound.slots _ _ _ hfound.2)

/-- A machine with the same store and the same fields is as sound. -/
theorem Sound.congr
    {m' : Machine}
    (h : Sound accepted H m)
    (hstore : m'.store = m.store)
    (hfields : m'.fields = m.fields) :
    Sound accepted H m' where
  global := hstore ▸ h.global
  root := hstore ▸ h.root
  slots := hstore ▸ h.slots
  fields id name value hvalue := by
    rw [hstore]
    refine h.fields id name value ?_
    simpa [Machine.field?, hfields] using hvalue
  receivers := hstore ▸ h.receivers
  openings := hstore ▸ h.openings

/-- An operation that changes neither the store nor the fields. -/
theorem Keeps.aside
    {x : Run α}
    {a : α}
    {m' : Machine}
    (hsound : Sound accepted H m)
    (hrun : x m = .ok a m')
    (hstore : m'.store = m.store)
    (hfields : m'.fields = m.fields) :
    Keeps accepted (Watch.perform x) H m declaring fun b _ m₁ => b = a ∧ m₁ = m' := by
  refine .perform (fun b m₁ hb => ?_) fun interrupt m₁ hb => ?_
  · rw [hrun] at hb
    cases hb
    exact ⟨hstore ▸ .refl _, hsound.congr hstore hfields, rfl, rfl⟩
  · rw [hrun] at hb
    cases hb

/-- A slot that is no constant can be given a value that fits. -/
theorem Sound.update
    (hsound : Sound accepted H m)
    {f : FrameId}
    {name : String}
    {slot : Slot}
    (hslot : m.store.slot? f name = some slot)
    (hconstant : slot.constant = false)
    (hname : ¬ Reserved name)
    {value : Value}
    (hvalue : ValueFits accepted H m.store value) :
    Grows [] m.store (m.store.update f slot value)
      ∧ Sound accepted H { m with store := m.store.update f slot value } := by
  have hgrows := grows_update m.store hslot hconstant hname value
  refine ⟨hgrows, hsound.grow (List.prefix_refl H) hgrows (fun g n s hs => ?_)
    (fun id n v hv => .inl hv) (fun _ hf => .inl hf) (hsound.openings.grow hgrows.size)⟩
  have hs' : (m.store.update f slot value).slot? g n = some s := hs
  rw [Store.slot?_update _ (Store.lt_nextId_of_slot? hslot)] at hs'
  split at hs'
  · cases hs'
    exact .inr (hvalue.grow (List.prefix_refl H) hgrows)
  · exact .inl ⟨g, n, s, hs', rfl⟩

/-- A field can be given a value that fits. -/
theorem Keeps.setField
    (hsound : Sound accepted H m)
    (id : InstanceId)
    (name : String)
    {value : Value}
    (hvalue : ValueFits accepted H m.store value) :
    Keeps accepted (Watch.perform (Run.setField id name value)) H m declaring
      fun _ _ _ => True := by
  refine .perform (fun a m' ha => ?_) fun interrupt m' ha => by cases ha
  cases ha
  refine ⟨.refl _, ⟨hsound.global, hsound.root, hsound.slots, fun j n v hv => ?_,
    hsound.receivers, hsound.openings⟩, trivial⟩
  rcases Machine.field?_setField m id j name n value v hv with rfl | hold
  · exact hvalue
  · exact hsound.fields j n v hold

/-- A moment at which no name is bound is no reason for growth. -/
theorem Grows.at_moment
    {x : Moment}
    (hact : ∀ f name constant, x.act ≠ .binds f name constant)
    {store store' : Store}
    (h : Grows [] store store') :
    Grows [x] store store' := by
  refine h.congr fun f name => iff_of_false ?_ (binds_nil f name)
  rintro ⟨y, hy, constant, hbinds⟩
  exact hact f name constant (List.mem_singleton.mp hy ▸ hbinds)

/-- Taking note that an expression is evaluated. -/
theorem Keeps.note
    {f : FrameId}
    {e : Expr}
    {Q : Unit → History → Machine → Prop}
    (hsound : Sound accepted H m)
    (hfine : EvaluatesAt accepted H m.store f e)
    (hQ : Q () (H ++ [⟨m, .evaluates f e⟩]) m) :
    Keeps accepted (Watch.note (.evaluates f e)) H m declaring Q := by
  let x : Moment := ⟨m, .evaluates f e⟩
  have hrun : (Watch.note (.evaluates f e) : Recorded Unit) m = ([x], .ok () m) := rfl
  have hgrows : Grows [x] m.store m.store := .at_moment (by simp) (.refl _)
  refine ⟨?_, ?_, ?_, fun a m' ha => ?_, fun interrupt m' ha => ?_⟩
  · refine .moment (.refl _) ⟨hsound, ?_⟩ hgrows (by simp [Moment.Done]) (.quiet (.refl _))
    rintro _ _ ⟨⟩
    exact hfine
  · refine hsound.grow (List.prefix_append H [x]) hgrows (fun g n slot hslot => ?_)
      (fun id n v hv => .inl hv) (fun g hg => ?_) (hsound.openings.snoc (Nat.le_refl _) ?_)
    · exact .inl ⟨g, n, slot, hslot, rfl⟩
    · exact .inl (hg.of_snoc.resolve_right (by simp))
    · simp
  · rintro g _ n ⟨y, hy, constant, hbinds⟩
    cases List.mem_singleton.mp hy
    cases hbinds
  · rw [hrun] at ha
    cases ha
    exact hQ
  · rw [hrun] at ha
    cases ha

/-- A frame has just been opened inside another and binds the given variables. -/
structure JustOpened
    (o : Opening)
    (enclosing : FrameId)
    (bindings : List (String × Value))
    (m : Machine)
    (f : FrameId)
    (H' : History)
    (m' : Machine) : Prop where
  new : f = m.store.nextId
  moment : ⟨m, .opens o⟩ ∈ H'
  enclosing : m'.store.enclosing? f = some enclosing
  flag : ∀ name, m'.store.flag? f name =
    if name ∈ bindings.map Prod.fst then some false else none
  single : ∀ name value, bindings = [(name, value)] →
    m'.store.slot? f name = some ⟨name, value, false⟩
  serial : m'.serial = m.serial

theorem JustOpened.opened
    {o : Opening}
    {enclosing f : FrameId}
    {bindings : List (String × Value)}
    {m' : Machine}
    {H' : History}
    (h : JustOpened o enclosing bindings m f H' m') :
    Opened H' f o :=
  ⟨_, h.moment, rfl, h.new.symm⟩

/-- A frame is opened; one that is opened for an instance binds it. -/
theorem Keeps.openFrame
    (hsound : Sound accepted H m)
    (o : Opening)
    (enclosing : FrameId)
    (bindings : List (String × Value))
    (hbindings : ∀ b ∈ bindings, ValueFits accepted H m.store b.2)
    (hreceiver : o = .receiver → ∃ (id : InstanceId) (c owner : ClassObject),
      bindings = [("this", .object id c)]
        ∧ enclosing = owner.own.frame
        ∧ owner.layers <:+ c.layers) :
    Keeps accepted (Code.openFrame o enclosing bindings) H m declaring
      (JustOpened o enclosing bindings m) := by
  let x : Moment := ⟨m, .opens o⟩
  let m' : Machine :=
    { m with store := (m.store.extend (some enclosing)).defineAll m.store.nextId bindings }
  have hrun : (Code.openFrame o enclosing bindings : Recorded FrameId) m =
      ([x], .ok m.store.nextId m') := rfl
  have hid : m.store.nextId < (m.store.extend (some enclosing)).nextId := by simp
  have hgrows : Grows [x] m.store m'.store :=
    .at_moment (by simp) (grows_newFrame m.store (some enclosing) bindings)
  have hopened : JustOpened o enclosing bindings m m.store.nextId (H ++ [x]) m' := by
    refine ⟨rfl, by simp [x], ?_, fun name => ?_, ?_, rfl⟩
    · simp [m', Store.enclosing?_extend]
    · rw [Store.flag?, Store.constant_slot?_defineAll _ hid]
      simp [Store.slot?_of_nextId_le]
    · rintro name value rfl
      simp [m', Store.defineAll, Store.slot?_define _ hid]
  refine ⟨?_, ?_, ?_, fun f m'' hf => ?_, fun interrupt m'' hf => ?_⟩
  · exact .moment (.refl _) ⟨hsound, by simp⟩ hgrows (by simp [Moment.Done])
      (.quiet (.refl _))
  · refine hsound.grow (List.prefix_append H [x]) hgrows (fun g n slot hslot => ?_)
      (fun id n v hv => .inl hv) (fun g hg => ?_) (hsound.openings.snoc hgrows.size ?_)
    · by_cases hg : m.store.nextId = g
      · subst hg
        rcases Store.slot?_defineAll _ hid bindings hslot with ⟨b, hb, hvalue⟩ | hold
        · rw [← hvalue]
          exact .inr ((hbindings b hb).grow (List.prefix_append H [x]) hgrows)
        · rw [Store.slot?_extend] at hold
          exact .inl ⟨_, n, slot, hold, rfl⟩
      · have hslot' : ((m.store.extend (some enclosing)).defineAll m.store.nextId bindings).slot?
            g n = some slot := hslot
        rw [Store.slot?_defineAll_of_ne _ hid hg, Store.slot?_extend] at hslot'
        exact .inl ⟨g, n, slot, hslot', rfl⟩
    · rcases hg.of_snoc with hold | ⟨hact, rfl⟩
      · exact .inl hold
      · obtain ⟨id, c, owner, rfl, rfl, howner⟩ := hreceiver (Act.opens.inj hact)
        exact .inr ⟨id, c, owner, hopened.single _ _ rfl, hopened.enclosing, howner⟩
    · exact fun _ _ => ⟨rfl, by simp [m']⟩
  · rintro g _ n ⟨y, hy, constant, hbinds⟩
    cases List.mem_singleton.mp hy
    cases hbinds
  · rw [hrun] at hf
    cases hf
    exact hopened
  · rw [hrun] at hf
    cases hf

section JustOpened

variable
  {o : Opening} {enclosing f : FrameId} {bindings : List (String × Value)} {m' : Machine}
  {H' : History}
  (h : JustOpened o enclosing bindings m f H' m')
  (hglobal : globalFrame < m.store.nextId)
include h hglobal

/-- A frame that was opened for a scope mirrors the scope. -/
theorem JustOpened.fits
    (scope : Scope)
    {scopes : List Scope}
    {os : List Opening}
    (hscope : ∀ name, scope.flag? name =
      if name ∈ bindings.map Prod.fst then some false else none)
    (houter : Fits H' m'.store enclosing scopes os) :
    Fits H' m'.store f (scope :: scopes) (o :: os) := by
  have hexact : Exact m'.store f scope := fun name => (h.flag name).trans (hscope name).symm
  have hf : f ≠ globalFrame := h.new ▸ Ne.symm (Nat.ne_of_lt hglobal)
  exact .inside hf h.opened h.enclosing hexact.covers houter

/-- Code stands in a frame that was opened for it. -/
theorem JustOpened.stands
    {p : Site}
    (scope : Scope)
    {scopes : List Scope}
    {os : List Opening}
    (hscopes : p.context.scopes = scope :: scopes)
    (hopenings : p.openings = o :: os)
    (hscope : ∀ name, scope.flag? name =
      if name ∈ bindings.map Prod.fst then some false else none)
    (houter : Fits H' m'.store enclosing scopes os) :
    Stands H' m'.store f p := by
  refine ⟨?_, fun s hs => ?_⟩
  · rw [hscopes, hopenings]
    exact h.fits hglobal scope hscope houter
  · rw [hscopes] at hs
    cases hs
    exact fun name => (h.flag name).trans (hscope name).symm

end JustOpened

/-- The name of a declaration is bound.  A local name must not be bound yet. -/
theorem Keeps.bindDeclared
    {frame : FrameId}
    {name : Token}
    {value : Value}
    {constant : Bool}
    (hsound : Sound accepted H m)
    (hthere : frame < m.store.nextId)
    (hfresh : frame ≠ globalFrame → m.store.flag? frame name.lexeme = none)
    (hname : name.IsName)
    (hvalue : ∀ H' store', H <+: H' →
      Grows [⟨m, .binds frame name.lexeme constant⟩] m.store store' →
      (∀ n, store'.flag? frame n =
        if name.lexeme = n then some constant else m.store.flag? frame n) →
      ValueFits accepted H' store' value) :
    Keeps accepted (Code.bindDeclared frame name value constant) H m (· = frame)
      fun _ H' m' => H <+: H' ∧ Grows [⟨m, .binds frame name.lexeme constant⟩] m.store m'.store
        ∧ ∀ n, m'.store.flag? frame n =
          if name.lexeme = n then some constant else m.store.flag? frame n := by
  let x : Moment := ⟨m, .binds frame name.lexeme constant⟩
  let m' : Machine := { m with store := m.store.define frame name.lexeme value constant }
  have hrun : (Code.bindDeclared frame name value constant : Recorded Unit) m = ([x], .ok () m') :=
    rfl
  have hbinds : ∀ g n, Binds [x] g n ↔ g = frame ∧ n = name.lexeme := by
    intro g n
    simp only [Binds, List.mem_singleton, exists_eq_left, x, Act.binds.injEq]
    constructor
    · rintro ⟨_, hframe, hname, _⟩
      exact ⟨hframe.symm, hname.symm⟩
    · rintro ⟨rfl, rfl⟩
      exact ⟨constant, rfl, rfl, rfl⟩
  have hgrows : Grows [x] m.store m'.store :=
    grows_define m.store hthere hbinds
      (fun hlocal => by simpa [Store.flag?] using hfresh hlocal) hname.not_reserved value constant
  have hflag : ∀ n, m'.store.flag? frame n =
      if name.lexeme = n then some constant else m.store.flag? frame n := by
    intro n
    simp only [Store.flag?, m', Store.slot?_define _ hthere, true_and]
    split <;> rfl
  refine ⟨?_, ?_, ?_, fun a m'' ha => ?_, fun interrupt m'' ha => ?_⟩
  · refine .moment (.refl _) ⟨hsound, fun _ _ h => by cases h⟩ hgrows ?_ (.quiet (.refl _))
    rintro f n c ⟨⟩
    simp [hflag]
  · refine hsound.grow (List.prefix_append H [x]) hgrows (fun g n slot hslot => ?_)
      (fun id n v hv => .inl hv) (fun g hg => .inl (hg.of_snoc.resolve_right (by simp)))
      (hsound.openings.snoc hgrows.size (by simp))
    have hslot' : m'.store.slot? g n = some slot := hslot
    rw [Store.slot?_define _ hthere] at hslot'
    split at hslot'
    · cases hslot'
      exact .inr (hvalue _ _ (List.prefix_append H [x]) hgrows hflag)
    · exact .inl ⟨g, n, slot, hslot', rfl⟩
  · exact fun g _ n hb => ((hbinds g n).mp hb).1
  · rw [hrun] at ha
    cases ha
    exact ⟨List.prefix_append H [x], hgrows, hflag⟩
  · rw [hrun] at ha
    cases ha

omit accepted in
/-- A name that the frame binds is found there. -/
theorem Run.reassign_eq_ok
    {frame : FrameId}
    {name : Token}
    {slot : Slot}
    (hslot : m.store.slot? frame name.lexeme = some slot)
    (value : Value) :
    Run.reassign frame name value m =
      .ok () { m with store := m.store.update frame slot value } := by
  change (Run.ofAccess name (m.store.find frame name.lexeme) >>= fun found =>
    Run.update found.1 found.2 value) m = _
  rw [Store.find_of_slot? hslot]
  rfl

/-- A variable of a frame gets a value that fits. -/
theorem Keeps.reassign
    {frame : FrameId}
    {name : Token}
    (value : Value)
    (hsound : Sound accepted H m)
    (hflag : m.store.flag? frame name.lexeme = some false)
    (hname : name.IsName)
    (hvalue : ValueFits accepted H m.store value) :
    Keeps accepted (Watch.perform (Run.reassign frame name value)) H m declaring
      fun _ _ _ => True := by
  obtain ⟨slot, hslot, hconstant⟩ := Option.map_eq_some_iff.mp hflag
  have hrun := Run.reassign_eq_ok hslot value
  obtain ⟨hgrows, hsound'⟩ := hsound.update hslot hconstant hname.not_reserved hvalue
  refine .perform (fun a m' ha => ?_) fun interrupt m' ha => ?_
  · rw [hrun] at ha
    cases ha
    exact ⟨hgrows, hsound', trivial⟩
  · rw [hrun] at ha
    cases ha

/-- A name with its link gets a value that fits, if it is no constant. -/
theorem Keeps.assignName
    {frame : FrameId}
    {target : Reference}
    {value : Value}
    (hsound : Sound accepted H m)
    (hconstant : ∀ g slot, target.link.leadsTo? m.store frame = some g →
      m.store.slot? g target.name.lexeme = some slot → slot.constant = false)
    (hleads : (target.link.leadsTo? m.store frame).isSome)
    (hname : target.name.IsName)
    (hvalue : ValueFits accepted H m.store value) :
    Keeps accepted (Watch.perform (Run.assignName frame target value)) H m declaring
      fun _ _ _ => True := by
  have hlook := looks_locate hsound.root frame target.name target.link
  cases hout : Run.locate frame target.name target.link m with
  | ok found m' =>
      obtain ⟨rfl, hfound, hslot⟩ := hlook.1 found m' hout
      have hrun : Run.assignName frame target value m' =
          .ok () { m' with store := m'.store.update found.1 found.2 value } :=
        Run.bind_of_ok hout _
      obtain ⟨hgrows, hsound'⟩ :=
        hsound.update hslot (hconstant _ _ hfound hslot) hname.not_reserved hvalue
      refine .perform (fun a m'' ha => ?_) fun interrupt m'' ha => ?_
      · rw [hrun] at ha
        cases ha
        exact ⟨hgrows, hsound', trivial⟩
      · rw [hrun] at ha
        cases ha
  | error interrupt m' =>
      obtain ⟨rfl, hordinary⟩ := hlook.2 interrupt m' hout
      have hrun : Run.assignName frame target value m' = .error interrupt m' :=
        Run.bind_of_error hout _
      refine .perform (fun a m'' ha => ?_) fun interrupt' m'' ha => ?_
      · rw [hrun] at ha
        cases ha
      · rw [hrun] at ha
        cases ha
        exact ⟨.refl _, hsound, .ordinary (hordinary hleads)⟩

/-- An instance without fields is made. -/
theorem Keeps.newInstance
    (hsound : Sound accepted H m)
    (c : ClassObject) :
    Keeps accepted (Watch.perform (Run.newInstance c)) H m declaring
      fun made _ _ => made.2 = c := by
  refine .perform (fun made m' hmade => ?_) fun interrupt m' ha => by cases ha
  cases hmade
  refine ⟨.refl _, ⟨hsound.global, hsound.root, hsound.slots, fun id n v hv => ?_,
    hsound.receivers, hsound.openings⟩, rfl⟩
  refine hsound.fields id n v ?_
  simp only [Machine.field?, Array.getElem?_push] at hv ⊢
  split at hv
  · cases hv
  · exact hv

end Keeping

/-- A class is made before its name is bound to it for good. -/
theorem Code.declareClass_eq
    {m : Machine}
    {frame : FrameId}
    (hframe : frame < m.store.nextId)
    (name : Token)
    (o : Option ClassObject)
    (methods : List FunctionDecl) :
    (Code.declareClass frame name o methods : Run Unit) m =
      (do
        Run.define frame name.lexeme .nil false
        let inner ← Code.methodFrame frame name methods o
        let serial ← Run.newSerial
        Run.define frame name.lexeme
          (.classObject (ClassLayer.extending ⟨serial, name.lexeme, methods, inner⟩ o)) false :
        Run Unit) m := by
  have hslot : (m.store.define frame name.lexeme .nil false).slot? frame name.lexeme =
      some ⟨name.lexeme, .nil, false⟩ := by
    rw [Store.slot?_define _ hframe]
    simp
  cases o with
  | none =>
      let m₂ : Machine :=
        { m with store := m.store.define frame name.lexeme .nil false, serial := m.serial + 1 }
      have hrun := Run.reassign_eq_ok (m := m₂) hslot
        (.classObject (ClassLayer.extending ⟨m.serial, name.lexeme, methods, frame⟩ none))
      change Run.reassign frame name _ m₂ = _
      rw [hrun]
      rfl
  | some parent =>
      let m₁ : Machine := { m with store := m.store.define frame name.lexeme .nil false }
      let m₂ : Machine :=
        { m₁ with
          store := (m₁.store.extend (some frame)).defineAll m₁.store.nextId
            [("super", .classObject parent)]
          serial := m₁.serial + 1 }
      have hslot₂ : m₂.store.slot? frame name.lexeme = some ⟨name.lexeme, .nil, false⟩ := by
        have hne : m₁.store.nextId ≠ frame := by simpa [m₁] using Ne.symm (Nat.ne_of_lt hframe)
        simp only [m₂]
        rw [Store.slot?_defineAll_of_ne _ (by simp) hne, Store.slot?_extend, hslot]
      have hrun := Run.reassign_eq_ok hslot₂
        (.classObject (ClassLayer.extending ⟨m₁.serial, name.lexeme, methods, m₁.store.nextId⟩
          (some parent)))
      change Run.reassign frame name _ m₂ = _
      rw [hrun]
      rfl

end Lox
