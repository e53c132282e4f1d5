import Lox.Proofs.Session.Resolution

/-!
# Methods of the superclass

Which method the word for the superclass finds does not depend on the class of the instance, on its
fields, or on what the names of classes stand for by then.  It depends on the class declaration
around the word: on the execution of that declaration by which the running method was made, and on
the superclass that it was given.

**Main definition.**
* `Moment.classMade`: the class that the execution of a declaration makes.

**Results.**
* `Session.super_is_static`: what the word for the superclass finds, and for which instance.
-/

namespace Lox

/--
The class that the execution of a declaration makes, told from the moment at which it opens the
frame for the superclass.
-/
def Moment.classMade
    (x : Moment)
    (name : Token)
    (methods : List FunctionDecl)
    (parent : ClassObject) : ClassObject :=
  ClassLayer.extending
    ⟨x.machine.serial, name.lexeme, methods, x.machine.store.nextId⟩ (some parent)

/-- The class that has a frame for its superclass is the one whose declaration opened the frame. -/
theorem Inherits.eq_classMade
    {H : History}
    {store : Store}
    {c parent : ClassObject}
    {name : Token}
    (h : Inherits H store c name parent)
    (hname : c.own.name = name.lexeme) :
    ∃ x ∈ H, x.act = .opens (.superclass name c.own.methods)
      ∧ c = x.classMade name c.own.methods parent := by
  obtain ⟨x, hx, hact, hid, hserial⟩ := h.opened
  refine ⟨x, hx, hact, ?_⟩
  have hsuperclass := h.superclass
  obtain ⟨⟨serial, className, methods, frame⟩, inherited⟩ := c
  cases inherited with
  | nil => cases hsuperclass
  | cons own rest =>
      cases hsuperclass
      simp only at hname hid hserial
      simp [Moment.classMade, ClassLayer.extending, ClassObject.layers, hname, hid, hserial]

/-- The function that is made of a method for an instance. -/
theorem Code.bindMethod_eq
    (method : Method)
    (id : InstanceId)
    (c : ClassObject)
    (m : Machine) :
    ∃ m', (bindMethod method id c : Run Closure) m =
        .ok ⟨m.serial, method.declaration, m.store.nextId, method.declaration.isInitializer⟩ m'
      ∧ m'.store.slot? m.store.nextId "this" = some ⟨"this", .object id c, false⟩
      ∧ m'.store.enclosing? m.store.nextId = some method.frame := by
  refine ⟨_, rfl, ?_, ?_⟩
  · simp [Store.defineAll, Store.slot?_define]
  · simp [Store.enclosing?_extend]

/-- The word for the superclass finds a method there and makes it for the instance. -/
theorem Run.evaluate_super
    {H : History}
    {m : Machine}
    {f : FrameId}
    {distance : Nat}
    {name : Token}
    {made parent : ClassObject}
    {id : InstanceId}
    {c : ClassObject}
    (hframes : SuperFrames H m.store f distance name made parent id c)
    {link : Link}
    (hlink : link.depth = some (distance + 1))
    (keyword method : Token)
    (rounds room : Nat) :
    Run.evaluate rounds (room + 1) f (.super keyword method link) m =
      match parent.method? method.lexeme with
      | some found => (Value.function <$> (Code.bindMethod found id c : Run Closure)) m
      | none => .error (.error ⟨.undefinedProperty method.lexeme, some method.line⟩) m := by
  obtain ⟨g, hg, hthis⟩ := hframes.receiver
  have hsuper := Run.getAt_eq_ok hframes.superclass hframes.inherits.bound keyword
  have hreceiver := Run.getAt_eq_ok hg hthis keyword
  change (Code.getInherited f keyword method link : Run Value) m = _
  simp only [Code.getInherited, hlink, Run.perform_eq]
  rw [Run.bind_of_ok hsuper]
  dsimp only
  rw [Nat.add_sub_cancel, Run.bind_of_ok hreceiver]
  dsimp only
  cases parent.method? method.lexeme <;> rfl

namespace Session

/--
Whenever the word for the superclass is evaluated, it stands in a method of a class declaration with
a superclass, and in no class inside of that.  The frame to which its link leads was opened by one
execution of the declaration, and binds the superclass that was given to the class made then.  The
frame one step inside of it binds an instance of that class or of one that inherits from it.  What
is found is the first method of the name in the superclass and those that it inherits from, made for
that very instance.
-/
theorem super_is_static
    {clock : List Float}
    {submissions : List Submission}
    {A B : History}
    {x : Moment}
    (hhistory : historyOf submissions (start clock) = A ++ x :: B)
    {f : FrameId}
    {keyword method : Token}
    {link : Link}
    (hact : x.act = .evaluates f (.super keyword method link)) :
    ∃ program p q name methods inner frames y made parent id c,
      Accepts submissions program
        ∧ Reaches program p (.expression (.super keyword method .unresolved))
        ∧ Among program p q name methods inner
        ∧ inner ≠ []
        ∧ Mirrors A x.machine.store f p frames
        ∧ link.depth = some (inner.length + 1)
        ∧ y ∈ A
        ∧ y.act = .opens (.superclass name
            (FunctionDecl.resolveMethods methods ((q.context.define name).inClass true)))
        ∧ made = y.classMade name
            (FunctionDecl.resolveMethods methods ((q.context.define name).inClass true)) parent
        ∧ SuperFrames A x.machine.store f inner.length name made parent id c
        ∧ ∀ rounds room,
            match parent.method? method.lexeme with
            | some found => ∃ m',
                Run.evaluate rounds (room + 1) f (.super keyword method link) x.machine =
                    .ok (.function ⟨x.machine.serial, found.declaration, x.machine.store.nextId,
                      found.declaration.isInitializer⟩) m'
                  ∧ m'.store.slot? x.machine.store.nextId "this" =
                    some ⟨"this", .object id c, false⟩
                  ∧ m'.store.enclosing? x.machine.store.nextId = some found.frame
            | none =>
                Run.evaluate rounds (room + 1) f (.super keyword method link) x.machine =
                  .error (.error ⟨.undefinedProperty method.lexeme, some method.line⟩)
                    x.machine := by
  have hcourse := course_start clock submissions
  rw [hhistory] at hcourse
  obtain ⟨_, hfine, _⟩ := hcourse.split
  obtain ⟨program, p, source, haccepts, hreaches, hsource, hpresent⟩ := hfine.evaluates f _ hact
  obtain ⟨frames, hmirrors⟩ := hpresent.mirrors hfine.sound.root hreaches.length_openings
  cases source with
  | super keyword' method' link' =>
      obtain ⟨rfl, rfl, rfl⟩ := Expr.super.inj hsource
      have hunlinked := ((hreaches.accepted haccepts.accepted).2 ⟨.super, method, link'⟩
        (by simp [Expr.references])).1
      dsimp only at hunlinked
      subst hunlinked
      obtain ⟨q, name, methods, inner, hamong, hinner⟩ :=
        hreaches.inMethod_super haccepts.accepted
      obtain ⟨made, parent, id, c, hframes, _, hname, hmethods⟩ :=
        hfine.sound.superFrames hamong (hpresent.stands (by simp)).fits
      obtain ⟨y, hy, hopens, hmade⟩ := hframes.inherits.eq_classMade hname
      rw [hmethods] at hopens hmade
      have hdepth : (p.context.link "super" .unresolved).depth = some (inner.length + 1) := by
        simp [Context.link, hamong.findScope?_super]
      refine ⟨program, p, q, name, methods, inner, frames, y, made, parent, id, c, haccepts,
        hreaches, hamong, hinner, by simpa using hmirrors, hdepth, by simpa using hy, hopens,
        hmade, by simpa using hframes, ?_⟩
      intro rounds room
      have hevaluate := Run.evaluate_super hframes hdepth keyword method rounds room
      cases hfound : parent.method? method.lexeme with
      | none => simpa [hfound] using hevaluate
      | some found =>
          obtain ⟨m', hbind, hthis, houter⟩ := Code.bindMethod_eq found id c x.machine
          refine ⟨m', ?_, hthis, houter⟩
          simp only [hfound] at hevaluate
          rw [hevaluate, map_eq_pure_bind, Run.bind_of_ok hbind]
          rfl
  | _ => cases hsource

/--
The word stands in a method of the class `b`, which the instance of its subclass inherits: it is the
superclass of `b` at which the search starts.
-/
theorem super_is_static_inherited_method :
    ∃ (A B : History) (x : Moment) (name : Token) (made parent : ClassObject) (id : InstanceId)
        (c : ClassObject),
      historyOf
          [⟨⟨30, 30, 30, 30⟩,
            "class a \x7b m() \x7b\x7d \x7d class b < a \x7b m() \x7b super.m; \x7d \x7d "
              ++ "class c < b \x7b\x7d c().m();"⟩]
          (start []) = A ++ x :: B
        ∧ x.act = .evaluates 4 (.super ⟨.superWord, "super", 1⟩ ⟨.identifier, "m", 1⟩
          ⟨some 2, none⟩)
        ∧ SuperFrames A x.machine.store 4 1 name made parent id c := by
  have hmoment : (historyOf
      [⟨⟨30, 30, 30, 30⟩,
        "class a \x7b m() \x7b\x7d \x7d class b < a \x7b m() \x7b super.m; \x7d \x7d "
          ++ "class c < b \x7b\x7d c().m();"⟩]
      (start []))[13]?.map Moment.act =
        some (.evaluates 4
          (.super ⟨.superWord, "super", 1⟩ ⟨.identifier, "m", 1⟩ ⟨some 2, none⟩)) := by cbv
  obtain ⟨x, hx, hact⟩ := Option.map_eq_some_iff.mp hmoment
  obtain ⟨A, B, hhistory⟩ := List.append_of_mem (List.mem_of_getElem? hx)
  obtain ⟨_, _, _, name, _, inner, _, _, made, parent, id, c, _, _, _, _, _, hdepth, _, _, _,
    hframes, _⟩ := super_is_static hhistory hact
  have hinner : inner.length = 1 := by simpa using hdepth.symm
  exact ⟨A, B, x, name, made, parent, id, c, hhistory, hact, hinner ▸ hframes⟩

end Session
end Lox
