import Lox.Proofs.Session.Course

/-!
# Resolution at run time

Whenever code of a session looks a name up, the frames outward from the running code are those of
the scopes that were open when resolution came to the code.  A link therefore leads to the frame of
the scope in which resolution found the name.

**Main definitions.**
* `Expr.access?`: the name that an expression looks up, and its link.
* `Mirrors`: the frames outward from a frame are those of the scopes around a site.

**Results.**
* `Session.frames_mirror_scopes`: what a link leads to.
* `Session.access_finds_name`: when the name is bound there.
-/

namespace Lox

/-- The name that an expression itself looks up when it is evaluated, and its link. -/
def Expr.access? : Expr → Option (String × Link)
  | .read target => some (target.name.lexeme, target.link)
  | .readConstant target => some (target.name.lexeme, target.link)
  | .assign target _ => some (target.name.lexeme, target.link)
  | .this keyword link => some (keyword.lexeme, link)
  | .super _ _ link => some ("super", link)
  | _ => none

/--
The machine on which an expression looks up its name.  An assignment does so after its value is
evaluated, and every other expression at once.
-/
def Expr.LooksUpOn
    (e : Expr)
    (f : FrameId)
    (m m' : Machine) : Prop :=
  match e with
  | .assign _ value => ∃ rounds room v, Run.evaluate rounds room f value m = .ok v m'
  | _ => m' = m

/--
The frames outward from a frame are those of the scopes around a site, one for each, and then the
global one.  Each was opened by what opened its scope.
-/
structure Mirrors
    (H : History)
    (store : Store)
    (f : FrameId)
    (p : Site)
    (frames : List FrameId) : Prop where
  outward : ∀ i, store.ancestor? f i = (frames ++ [globalFrame])[i]?
  notGlobal : globalFrame ∉ frames
  opened : List.Forall₂ (Opened H) frames p.openings
  one_for_each : frames.length = p.context.scopes.length

section Links

/-- Resolution gives a name the distance of the scope in which it finds the name. -/
theorem Reaches.depth_access?
    {program : List Stmt}
    (hprogram : Accepted program)
    {p : Site}
    {e : Expr}
    (h : Reaches program p (.expression e))
    {name : String}
    {link : Link}
    (haccess : (e.resolve p.context).access? = some (name, link)) :
    link.depth = (findScope? name p.context.scopes).map Prod.fst := by
  obtain ⟨⟨_, hclean⟩, hparsed⟩ := h.accepted hprogram
  cases e with
  | read target =>
      cases haccess
      have hlink := hparsed ⟨.read, target.name, target.link⟩ (by simp [Expr.references])
      exact Context.depth_link hlink.1
  | readConstant target =>
      have hlink := hparsed ⟨.readConstant, target.name, target.link⟩ (by simp [Expr.references])
      exact absurd rfl hlink.2.1
  | assign target value =>
      cases haccess
      have hlink := hparsed ⟨.assign, target.name, target.link⟩ (by simp [Expr.references])
      exact Context.depth_assignmentLink hlink.1
  | this keyword link =>
      cases haccess
      have hlink := hparsed ⟨.this, keyword, link⟩ (by simp [Expr.references])
      have howner : p.context.owner ≠ .none := by
        simpa [Expr.errors, Context.thisErrors, errorIf_eq_nil] using hclean
      have hthis : p.context.thisLink link = p.context.link "this" link := by
        unfold Context.thisLink
        split
        · next hnone => exact absurd hnone howner
        · rfl
      rw [hthis, hlink.2.2 rfl]
      exact Context.depth_link hlink.1
  | super keyword method link =>
      cases haccess
      have hlink := hparsed ⟨.super, method, link⟩ (by simp [Expr.references])
      exact Context.depth_link hlink.1
  | _ => cases haccess

end Links

/-- In the initializer of a local name, the name can be assigned but not read. -/
theorem Reaches.eq_assign_of_inOwnInitializer
    {program : List Stmt}
    (hprogram : Accepted program)
    {p : Site}
    {e : Expr}
    (h : Reaches program p (.expression e))
    {name : String}
    {link : Link}
    (haccess : (e.resolve p.context).access? = some (name, link))
    {d : Nat}
    {standing : Standing}
    (hfound : findScope? name p.context.scopes = some (d, standing))
    (hown : InOwnInitializer program p e name) :
    ∃ target value, e = .assign target value := by
  obtain rfl := (h.pending_iff hfound).mpr hown
  obtain rfl := h.settled.eq_zero_of_pending hfound
  have hinnermost : p.context.scopes.head?.bind (·.standing? name) = some .pending := by
    obtain ⟨scope, hscope, hstanding⟩ := findScope?_eq_some hfound
    simp [List.head?_eq_getElem?, hscope, hstanding]
  obtain ⟨⟨_, hclean⟩, hparsed⟩ := h.accepted hprogram
  obtain ⟨q, s, declared, initializer, hstatement, hs, rfl, _⟩ := hown
  obtain ⟨⟨_, hclean'⟩, hparsed'⟩ := hstatement.accepted hprogram
  obtain ⟨_, _, hname⟩ := Stmt.initialized_accepted hs hclean' hparsed'
  cases e with
  | assign target value => exact ⟨target, value, rfl⟩
  | read target =>
      simp only [Expr.resolve, Expr.access?, Reference.resolve, Option.some.injEq,
        Prod.mk.injEq] at haccess
      simp [Expr.errors, Context.readErrors, errorIf_eq_nil, Context.innermost?, haccess.1,
        hinnermost] at hclean
  | readConstant target =>
      have hlink := hparsed ⟨.readConstant, target.name, target.link⟩ (by simp [Expr.references])
      exact absurd rfl hlink.2.1
  | this keyword link =>
      have hlink := hparsed ⟨.this, keyword, link⟩ (by simp [Expr.references])
      simp only [Expr.resolve, Expr.access?, Option.some.injEq, Prod.mk.injEq] at haccess
      exact absurd (haccess.1.symm.trans (hlink.2.2 rfl)) hname.1
  | super keyword method link =>
      simp only [Expr.resolve, Expr.access?, Option.some.injEq, Prod.mk.injEq] at haccess
      exact absurd haccess.1.symm hname.2
  | _ => cases haccess

/-- While an expression is evaluated, the frames mirror the scopes around it. -/
theorem Present.mirrors
    {H : History}
    {store : Store}
    (hroot : store.enclosing? globalFrame = none)
    {f : FrameId}
    {p : Site}
    {e : Expr}
    (h : Present H store f p e)
    (hlength : p.openings.length = p.context.scopes.length) :
    ∃ frames, Mirrors H store f p frames := by
  have hchain : ∃ scopes, Fits H store f scopes p.openings := by
    cases h with
    | here hstands => exact ⟨_, hstands.fits⟩
    | superclass hstands _ => exact ⟨_, hstands.fits⟩
  obtain ⟨scopes, hfits⟩ := hchain
  obtain ⟨frames, houtward, hglobal, hopened, _⟩ := hfits.chain hroot
  exact ⟨frames, houtward, hglobal, hopened, hopened.length_eq.trans hlength⟩

/-- The frame at a distance is the one for the scope at that distance. -/
theorem Mirrors.frame
    {H : History}
    {store : Store}
    {f : FrameId}
    {p : Site}
    {frames : List FrameId}
    (h : Mirrors H store f p frames)
    {name : String}
    {d : Nat}
    {standing : Standing}
    (hfound : findScope? name p.context.scopes = some (d, standing)) :
    ∃ g o, store.ancestor? f d = some g ∧ frames[d]? = some g ∧ g ≠ globalFrame
      ∧ p.openings[d]? = some o ∧ Opened H g o := by
  obtain ⟨scope, hscope, _⟩ := findScope?_eq_some hfound
  have hd : d < frames.length := by
    rw [h.one_for_each]
    exact (List.getElem?_eq_some_iff.mp hscope).1
  have hframe : frames[d]? = some frames[d] := List.getElem?_eq_getElem hd
  have hopening : d < p.openings.length := h.opened.length_eq ▸ hd
  refine ⟨frames[d], p.openings[d], ?_, hframe, ?_, List.getElem?_eq_getElem hopening, ?_⟩
  · rw [h.outward, List.getElem?_append_left hd, hframe]
  · exact fun heq => h.notGlobal (heq ▸ List.getElem_mem hd)
  · exact h.opened.get hd hopening

/-- Between the evaluation of an expression and its access, no names are declared. -/
theorem Expr.LooksUpOn.later
    {accepted : List Stmt → Prop}
    (hall : ∀ program, accepted program → Accepted program)
    {program : List Stmt}
    (haccepted : accepted program)
    {p : Site}
    {e : Expr}
    (hreaches : Reaches program p (.expression e))
    {H : History}
    {m : Machine}
    (hsound : Sound accepted H m)
    {f : FrameId}
    (hpresent : Present H m.store f p e)
    {m' : Machine}
    (h : (e.resolve p.context).LooksUpOn f m m') :
    ∃ H', Later accepted nowhere H m H' m' := by
  cases e with
  | assign target value =>
      obtain ⟨rounds, room, v, hvalue⟩ := h
      have hkeeps := (runsWell hall rounds room).1 haccepted
        (hreaches.part (by simp [Expr.parts] : value ∈ _)) hsound
          (.here (hpresent.stands (by simp)))
      rw [← Code.recorded_evaluate] at hvalue
      exact ⟨_, hkeeps.later hvalue⟩
  | _ =>
      subst h
      exact ⟨H, .refl hsound⟩

theorem Store.isSome_slot?
    (store : Store)
    (f : FrameId)
    (name : String) :
    (store.slot? f name).isSome = (store.flag? f name).isSome := by
  simp [Store.flag?]

/-- The access to a name at a distance. -/
theorem Run.locate_of_depth
    {m : Machine}
    {f g : FrameId}
    (place : Token)
    {link : Link}
    {d : Nat}
    (hdepth : link.depth = some d)
    (hancestor : m.store.ancestor? f d = some g) :
    Run.locate f place link m =
      match m.store.slot? g place.lexeme with
      | some slot => .ok (g, slot) m
      | none => .error (.error ⟨.undefinedVariable place.lexeme, some place.line⟩) m := by
  have hget : Run.locate f place link m =
      Run.ofAccess place (m.store.findAt f d place.lexeme) m := by
    simp only [Run.locate, hdepth]
    rfl
  rw [hget, Store.findAt, hancestor]
  dsimp only
  cases m.store.slot? g place.lexeme <;> rfl

namespace Session

/--
Whenever an expression looks up a name, its code comes from an accepted text of the session, and
the frames outward mirror the scopes that resolution had open there.  With a distance, the access
goes to the frame of the scope in which the name was found, and without one no scope had declared
the name and the access goes to the global frame.
-/
theorem frames_mirror_scopes
    {clock : List Float}
    {submissions : List Submission}
    {A B : History}
    {x : Moment}
    (hhistory : historyOf submissions (start clock) = A ++ x :: B)
    {f : FrameId}
    {e : Expr}
    (hact : x.act = .evaluates f e)
    {name : String}
    {link : Link}
    (haccess : e.access? = some (name, link)) :
    ∃ program p source frames g,
      Accepts submissions program
        ∧ Reaches program p (.expression source)
        ∧ e = source.resolve p.context
        ∧ Mirrors A x.machine.store f p frames
        ∧ (match link.depth with
          | some d => ∃ standing o,
              findScope? name p.context.scopes = some (d, standing)
                ∧ x.machine.store.ancestor? f d = some g
                ∧ frames[d]? = some g
                ∧ g ≠ globalFrame
                ∧ p.openings[d]? = some o
                ∧ Opened A g o
          | none => findScope? name p.context.scopes = none ∧ g = globalFrame)
        ∧ ∀ m' place found m'', e.LooksUpOn f x.machine m' → place.lexeme = name →
            Run.locate f place link m' = .ok found m'' → found.1 = g := by
  have hcourse := course_start clock submissions
  rw [hhistory] at hcourse
  obtain ⟨_, hfine, _⟩ := hcourse.split
  obtain ⟨program, p, source, haccepts, hreaches, rfl, hpresent⟩ := hfine.evaluates f e hact
  obtain ⟨frames, hmirrors⟩ := hpresent.mirrors hfine.sound.root hreaches.length_openings
  have hdepth := hreaches.depth_access? haccepts.accepted haccess
  have hleads : ∀ {g}, link.leadsTo? x.machine.store f = some g →
      ∀ m' place found m'', (source.resolve p.context).LooksUpOn f x.machine m' →
        place.lexeme = name → Run.locate f place link m' = .ok found m'' → found.1 = g := by
    intro g hg m' place found m'' hon _ hlocate
    obtain ⟨H', hlater⟩ := hon.later (fun _ h => h.accepted) haccepts hreaches hfine.sound hpresent
    have hfound := (looks_locate hlater.sound.root f place link).1 found m'' hlocate
    have hg' : link.leadsTo? m'.store f = some g := by
      unfold Link.leadsTo? at hg ⊢
      split at hg
      · exact hlater.ancestor? hg
      · exact hg
    exact Option.some.inj (hfound.2.1.symm.trans hg')
  cases hfound : findScope? name p.context.scopes with
  | none =>
      rw [hfound] at hdepth
      refine ⟨program, p, source, frames, globalFrame, haccepts, hreaches, rfl,
        by simpa using hmirrors, ?_, hleads (by simp [Link.leadsTo?, hdepth])⟩
      simp [hdepth, hfound]
  | some found =>
      obtain ⟨d, standing⟩ := found
      rw [hfound] at hdepth
      obtain ⟨g, o, hancestor, hframe, hg, ho, hopened⟩ := hmirrors.frame hfound
      refine ⟨program, p, source, frames, g, haccepts, hreaches, rfl, by simpa using hmirrors, ?_,
        hleads (by simpa [Link.leadsTo?, hdepth] using hancestor)⟩
      simp only [hdepth, Option.map_some]
      exact ⟨standing, o, hfound, hancestor, hframe, hg, ho, by simpa using hopened⟩

/--
A function that one text makes and keeps is called by the next: its body finds the local name.
-/
theorem frames_mirror_scopes_kept_function :
    ∃ (A B : History) (x : Moment) (p : Site) (frames : List FrameId),
      historyOf
          [⟨⟨20, 20, 20, 20⟩, "var g; \x7b var a; fun f() \x7b a; \x7d g = f; \x7d"⟩,
            ⟨⟨20, 20, 20, 20⟩, "g();"⟩]
          (start []) = A ++ x :: B
        ∧ x.act = .evaluates 2 (.read ⟨⟨.identifier, "a", 1⟩, ⟨some 1, none⟩⟩)
        ∧ Mirrors A x.machine.store 2 p frames
        ∧ (findScope? "a" p.context.scopes).map Prod.fst = some 1 := by
  have hmoment : (historyOf
      [⟨⟨20, 20, 20, 20⟩, "var g; \x7b var a; fun f() \x7b a; \x7d g = f; \x7d"⟩,
        ⟨⟨20, 20, 20, 20⟩, "g();"⟩]
      (start []))[9]?.map Moment.act =
        some (.evaluates 2 (.read ⟨⟨.identifier, "a", 1⟩, ⟨some 1, none⟩⟩)) := by cbv
  obtain ⟨x, hx, hact⟩ := Option.map_eq_some_iff.mp hmoment
  obtain ⟨A, B, hhistory⟩ := List.append_of_mem (List.mem_of_getElem? hx)
  obtain ⟨_, p, _, frames, _, _, _, _, hmirrors, ⟨_, _, hfound, _⟩, _⟩ :=
    frames_mirror_scopes hhistory hact rfl
  exact ⟨A, B, x, p, frames, hhistory, hact, hmirrors, by simp [hfound]⟩

/--
A name that is looked up at a distance is bound in the frame there, and the access finds it, except
where a local name is assigned in the initializer of its own declaration: there the name is not
bound yet, and the access fails.
-/
theorem access_finds_name
    {clock : List Float}
    {submissions : List Submission}
    {A B : History}
    {x : Moment}
    (hhistory : historyOf submissions (start clock) = A ++ x :: B)
    {f : FrameId}
    {e : Expr}
    (hact : x.act = .evaluates f e)
    {name : String}
    {link : Link}
    (haccess : e.access? = some (name, link))
    {d : Nat}
    (hdepth : link.depth = some d) :
    ∃ program p source g,
      Accepts submissions program
        ∧ Reaches program p (.expression source)
        ∧ e = source.resolve p.context
        ∧ x.machine.store.ancestor? f d = some g
        ∧ (InOwnInitializer program p source name → ∃ target value, source = .assign target value)
        ∧ ((x.machine.store.slot? g name).isSome ↔ ¬ InOwnInitializer program p source name)
        ∧ ∀ m' place, e.LooksUpOn f x.machine m' → place.lexeme = name →
            (InOwnInitializer program p source name →
              Run.locate f place link m' =
                .error (.error ⟨.undefinedVariable name, some place.line⟩) m')
            ∧ (¬ InOwnInitializer program p source name →
              ∃ slot, Run.locate f place link m' = .ok (g, slot) m') := by
  have hcourse := course_start clock submissions
  rw [hhistory] at hcourse
  obtain ⟨_, hfine, _⟩ := hcourse.split
  obtain ⟨program, p, source, haccepts, hreaches, rfl, hpresent⟩ := hfine.evaluates f e hact
  have hfound := hreaches.depth_access? haccepts.accepted haccess
  rw [hdepth, eq_comm, Option.map_eq_some_iff] at hfound
  obtain ⟨⟨_, standing⟩, hfound, rfl⟩ := hfound
  have hread : ∀ target, source = .read target → target.name.lexeme = name := by
    rintro target rfl
    cases haccess
    rfl
  obtain ⟨g, hancestor, hflag⟩ := hpresent.flag?_found hreaches.settled hread hfound
  have hpending := hreaches.pending_iff hfound
  refine ⟨program, p, source, g, haccepts, hreaches, rfl, hancestor, fun hown => ?_, ?_, ?_⟩
  · exact hreaches.eq_assign_of_inOwnInitializer haccepts.accepted haccess hfound hown
  · rw [← hpending, Store.isSome_slot?, hflag]
    cases standing <;> simp [Standing.flag?]
  · rintro m' place hon rfl
    obtain ⟨H', hlater⟩ := hon.later (fun _ h => h.accepted) haccepts hreaches hfine.sound hpresent
    have hpresent' := hlater.present hfine.sound hpresent
    obtain ⟨g', hancestor', hflag'⟩ := hpresent'.flag?_found hreaches.settled hread hfound
    obtain rfl : g = g' := Option.some.inj ((hlater.ancestor? hancestor).symm.trans hancestor')
    rw [← hpending, Run.locate_of_depth place hdepth hancestor']
    cases hslot : m'.store.slot? g place.lexeme with
    | none =>
        refine ⟨fun _ => rfl, fun hne => ?_⟩
        simp only [Store.flag?, hslot, Option.map_none] at hflag'
        cases standing <;> simp [Standing.flag?] at hflag' hne
    | some slot =>
        refine ⟨?_, fun _ => ⟨slot, rfl⟩⟩
        rintro rfl
        simp [Store.flag?, hslot, Standing.flag?] at hflag'

/-- In the initializer of a local name the name is assigned before it is bound. -/
theorem access_finds_name_own_initializer :
    ∃ (A B : History) (x : Moment) (g : FrameId),
      historyOf [⟨⟨20, 20, 20, 20⟩, "\x7b var a = a = nil; \x7d"⟩] (start []) = A ++ x :: B
        ∧ x.act =
          .evaluates 1 (.assign ⟨⟨.identifier, "a", 1⟩, ⟨some 0, none⟩⟩ (.literal .nil))
        ∧ x.machine.store.ancestor? 1 0 = some g
        ∧ ∃ program p source,
          (x.machine.store.slot? g "a").isSome ↔ ¬ InOwnInitializer program p source "a" := by
  have hmoment : (historyOf [⟨⟨20, 20, 20, 20⟩, "\x7b var a = a = nil; \x7d"⟩]
      (start []))[1]?.map Moment.act =
        some (.evaluates 1 (.assign ⟨⟨.identifier, "a", 1⟩, ⟨some 0, none⟩⟩ (.literal .nil))) := by
    cbv
  obtain ⟨x, hx, hact⟩ := Option.map_eq_some_iff.mp hmoment
  obtain ⟨A, B, hhistory⟩ := List.append_of_mem (List.mem_of_getElem? hx)
  obtain ⟨program, p, source, g, _, _, _, hancestor, _, hbound, _⟩ :=
    access_finds_name hhistory hact rfl rfl
  exact ⟨A, B, x, g, hhistory, hact, hancestor, program, p, source, hbound⟩

example :
    ((start []).run ⟨20, 20, 20, 20⟩ "\x7b var a = a = nil; \x7d").1 =
      .ran [] (.failed ⟨.undefinedVariable "a", some 1⟩) := by
  cbv

end Session
end Lox
