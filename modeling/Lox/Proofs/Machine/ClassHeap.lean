import Lox.Proofs.Machine.Heap

/-!
# The heap of classes

A class value holds the layers of all classes that it consists of.  On a heap a class holds its own
layer and a link to its superclass, and the classes are shared.  Here the heap is built from the
classes of a run in the order in which they were made, with serial numbers for links.

A class is made after its superclass, so links lead to lower numbers.  Hence the way along the links
ends, meets no class twice, and shows the layers of the class value one after the other.

**Main definitions.**
* `ClassHeap.of`: the heap of some classes.
* `ClassHeap.Leads`: the way along the superclasses.
* `ClassHeap.Finds`: the search for a method along that way.
* `MadeInOrder`: every class was made after those before it, and after its superclass.

**Results.**
* `MadeInOrder.leads`: the way from a class to its end.
* `MadeInOrder.finds`: the search for a method ends with the method that the class value has.
* `MadeInOrder.heap_stays`: what the heap holds of a class stays when more classes are made.
-/

namespace Lox

/-- What a heap holds of a class: its own layer, and the serial number of its superclass. -/
structure ClassRecord where
  own : ClassLayer
  superclass : Option Nat

/-- What a heap holds of a class value. -/
def ClassObject.record (c : ClassObject) : ClassRecord :=
  ⟨c.own, c.superclass?.map fun parent => parent.own.serial⟩

/-- What is held of the classes, by their serial numbers. -/
abbrev ClassHeap := Nat → Option ClassRecord

namespace ClassHeap

/-- The heap of some classes. -/
def of (made : List ClassObject) : ClassHeap :=
  fun serial => (made.find? (·.own.serial == serial)).map ClassObject.record

/-- The classes on the way from a class along its superclasses to the last one. -/
inductive Leads (heap : ClassHeap) : Nat → List Nat → Prop
  | last {serial : Nat} {own : ClassLayer} :
      heap serial = some ⟨own, none⟩ → Leads heap serial [serial]
  | link {serial next : Nat} {own : ClassLayer} {path : List Nat} :
      heap serial = some ⟨own, some next⟩ → Leads heap next path →
      Leads heap serial (serial :: path)

/-- The search for a method: a class that does not have it leaves it to its superclass. -/
inductive Finds (heap : ClassHeap) (name : String) : Nat → Option Method → Prop
  | here {serial : Nat} {record : ClassRecord} {method : Method} :
      heap serial = some record → record.own.method? name = some method →
      Finds heap name serial (some method)
  | inherited {serial next : Nat} {own : ClassLayer} {result : Option Method} :
      heap serial = some ⟨own, some next⟩ → own.method? name = none →
      Finds heap name next result → Finds heap name serial result
  | nowhere {serial : Nat} {own : ClassLayer} :
      heap serial = some ⟨own, none⟩ → own.method? name = none → Finds heap name serial none

/-- The method that a class has itself. -/
def ownMethod? (heap : ClassHeap) (name : String) (serial : Nat) : Option Method :=
  (heap serial).bind fun record => record.own.method? name

variable {heap : ClassHeap}

/-- There is one way from a class. -/
theorem Leads.unique
    {serial : Nat}
    {path path' : List Nat}
    (h : Leads heap serial path)
    (h' : Leads heap serial path') :
    path = path' := by
  induction h generalizing path' with
  | last hrecord =>
      cases h' with
      | last _ => rfl
      | link hrecord' _ => cases hrecord.symm.trans hrecord'
  | link hrecord _ ih =>
      cases h' with
      | last hrecord' => cases hrecord.symm.trans hrecord'
      | link hrecord' hrest =>
          cases hrecord.symm.trans hrecord'
          rw [ih hrest]

/-- A search has one result. -/
theorem Finds.unique
    {name : String}
    {serial : Nat}
    {result result' : Option Method}
    (h : Finds heap name serial result)
    (h' : Finds heap name serial result') :
    result = result' := by
  induction h with
  | here hrecord hmethod =>
      cases h' with
      | here hrecord' hmethod' =>
          cases hrecord.symm.trans hrecord'
          exact hmethod.symm.trans hmethod'
      | inherited hrecord' hnone _ =>
          cases hrecord.symm.trans hrecord'
          cases hmethod.symm.trans hnone
      | nowhere hrecord' hnone =>
          cases hrecord.symm.trans hrecord'
          cases hmethod.symm.trans hnone
  | inherited hrecord hnone _ ih =>
      cases h' with
      | here hrecord' hmethod =>
          cases hrecord.symm.trans hrecord'
          cases hmethod.symm.trans hnone
      | inherited hrecord' _ hrest =>
          cases hrecord.symm.trans hrecord'
          exact ih hrest
      | nowhere hrecord' _ => cases hrecord.symm.trans hrecord'
  | nowhere hrecord hnone =>
      cases h' with
      | here hrecord' hmethod =>
          cases hrecord.symm.trans hrecord'
          cases hmethod.symm.trans hnone
      | inherited hrecord' _ _ => cases hrecord.symm.trans hrecord'
      | nowhere _ _ => rfl

/-- A search comes to the method of the first class on the way that has one. -/
theorem Leads.finds
    {serial : Nat}
    {path : List Nat}
    (h : Leads heap serial path)
    (name : String) :
    Finds heap name serial (path.findSome? (heap.ownMethod? name)) := by
  induction h with
  | @last serial own hrecord =>
      rw [List.findSome?_singleton, ownMethod?, hrecord, Option.bind_some]
      cases hmethod : own.method? name with
      | none => exact .nowhere hrecord hmethod
      | some method => exact .here hrecord hmethod
  | @link serial next own path hrecord _ ih =>
      rw [List.findSome?_cons, ownMethod?, hrecord, Option.bind_some]
      cases hmethod : own.method? name with
      | none => exact .inherited hrecord hmethod ih
      | some method => exact .here hrecord hmethod

end ClassHeap

/-- Every class was made after those before it, and after its superclass. -/
structure MadeInOrder (made : List ClassObject) : Prop where
  serials : made.Pairwise fun c d => c.own.serial < d.own.serial
  superclass : ∀ c ∈ made, ∀ parent, c.superclass? = some parent →
    parent ∈ made ∧ parent.own.serial < c.own.serial

namespace MadeInOrder

variable {made : List ClassObject}

theorem nil : MadeInOrder [] :=
  ⟨.nil, nofun⟩

/-- One more class is made, of a class that is there. -/
theorem snoc
    (h : MadeInOrder made)
    {c : ClassObject}
    (hserials : ∀ d ∈ made, d.own.serial < c.own.serial)
    (hsuperclass : ∀ parent, c.superclass? = some parent → parent ∈ made) :
    MadeInOrder (made ++ [c]) where
  serials := List.pairwise_append.mpr ⟨h.serials, List.pairwise_singleton _ c, fun d hd e he =>
    List.mem_singleton.mp he ▸ hserials d hd⟩
  superclass d hd parent hparent := by
    rcases List.mem_append.mp hd with hd | hd
    · obtain ⟨hmem, hlt⟩ := h.superclass d hd parent hparent
      exact ⟨List.mem_append_left _ hmem, hlt⟩
    · cases List.mem_singleton.mp hd
      exact ⟨List.mem_append_left _ (hsuperclass parent hparent),
        hserials parent (hsuperclass parent hparent)⟩

theorem eq_of_serial
    (h : MadeInOrder made)
    {c d : ClassObject}
    (hc : c ∈ made)
    (hd : d ∈ made)
    (hserial : c.own.serial = d.own.serial) :
    c = d := by
  have hnodup : (made.map fun c => c.own.serial).Nodup :=
    List.pairwise_map.mpr (h.serials.imp Nat.ne_of_lt)
  exact List.inj_on_of_nodup_map hnodup hc hd hserial

/-- The heap holds of a class what the class value holds. -/
theorem heap_eq
    (h : MadeInOrder made)
    {c : ClassObject}
    (hc : c ∈ made) :
    ClassHeap.of made c.own.serial = some c.record := by
  cases hfound : made.find? (·.own.serial == c.own.serial) with
  | none => exact absurd (List.find?_eq_none.mp hfound c hc) (by simp)
  | some d =>
      have hd := List.mem_of_find?_eq_some hfound
      have hserial : d.own.serial = c.own.serial := by simpa using List.find?_some hfound
      rw [ClassHeap.of, hfound, h.eq_of_serial hd hc hserial, Option.map_some]

theorem ownMethod?_eq
    (h : MadeInOrder made)
    {c : ClassObject}
    (hc : c ∈ made)
    (name : String) :
    (ClassHeap.of made).ownMethod? name c.own.serial = c.own.method? name := by
  rw [ClassHeap.ownMethod?, h.heap_eq hc]
  rfl

/-- A heap holds a class only if it was made. -/
theorem exists_of_heap
    {serial : Nat}
    {record : ClassRecord}
    (hrecord : ClassHeap.of made serial = some record) :
    ∃ c ∈ made, c.own.serial = serial ∧ c.record = record := by
  obtain ⟨c, hfound, rfl⟩ := Option.map_eq_some_iff.mp hrecord
  have hserial : c.own.serial = serial := by simpa using List.find?_some hfound
  exact ⟨c, List.mem_of_find?_eq_some hfound, hserial, rfl⟩

/-- The links lead along the layers of the class value. -/
theorem leads
    (h : MadeInOrder made)
    {c : ClassObject}
    (hc : c ∈ made) :
    (ClassHeap.of made).Leads c.own.serial (c.layers.map ClassLayer.serial) := by
  obtain ⟨own, inherited⟩ := c
  induction inherited generalizing own with
  | nil => exact .last (h.heap_eq hc)
  | cons layer rest ih =>
      obtain ⟨hparent, -⟩ := h.superclass _ hc ⟨layer, rest⟩ rfl
      exact .link (h.heap_eq hc) (ih layer hparent)

/-- The numbers of the classes on the way get lower and lower. -/
theorem descends
    (h : MadeInOrder made)
    {c : ClassObject}
    (hc : c ∈ made) :
    (c.layers.map ClassLayer.serial).Pairwise (· > ·) := by
  obtain ⟨own, inherited⟩ := c
  induction inherited generalizing own with
  | nil => exact List.pairwise_singleton _ _
  | cons layer rest ih =>
      obtain ⟨hparent, hlt⟩ := h.superclass _ hc ⟨layer, rest⟩ rfl
      have hrest := ih layer hparent
      refine List.pairwise_cons.mpr ⟨fun n hn => ?_, hrest⟩
      rcases List.mem_cons.mp hn with rfl | hn
      · exact hlt
      · exact Nat.lt_trans ((List.pairwise_cons.mp hrest).1 n hn) hlt

/-- No class is met twice. -/
theorem nodup
    (h : MadeInOrder made)
    {c : ClassObject}
    (hc : c ∈ made) :
    (c.layers.map ClassLayer.serial).Nodup :=
  (h.descends hc).imp Nat.ne_of_gt

/-- Every class that a class consists of was made. -/
theorem mem_of_suffix
    (h : MadeInOrder made)
    {c d : ClassObject}
    (hc : c ∈ made)
    (hd : d.layers <:+ c.layers) :
    d ∈ made := by
  obtain ⟨own, inherited⟩ := c
  induction inherited generalizing own with
  | nil =>
      rcases List.suffix_cons_iff.mp hd with heq | hnil
      · rwa [ClassObject.layers_injective heq]
      · cases List.suffix_nil.mp hnil
  | cons layer rest ih =>
      rcases List.suffix_cons_iff.mp hd with heq | hinside
      · rwa [ClassObject.layers_injective heq]
      · exact ih layer (h.superclass _ hc ⟨layer, rest⟩ rfl).1 hinside

/-- A class value has the method of the first class on the way that has one. -/
theorem method?_eq
    (h : MadeInOrder made)
    {c : ClassObject}
    (hc : c ∈ made)
    (name : String) :
    c.method? name =
      (c.layers.map ClassLayer.serial).findSome? ((ClassHeap.of made).ownMethod? name) := by
  obtain ⟨own, inherited⟩ := c
  induction inherited generalizing own with
  | nil =>
      change [own].findSome? _ = [own.serial].findSome? _
      rw [List.findSome?_singleton, List.findSome?_singleton]
      exact (h.ownMethod?_eq hc name).symm
  | cons layer rest ih =>
      have hrest := ih layer (h.superclass _ hc ⟨layer, rest⟩ rfl).1
      have hown := h.ownMethod?_eq hc name
      refine List.findSome?_cons.trans (Eq.trans ?_ List.findSome?_cons.symm)
      dsimp only at hown ⊢
      rw [hown]
      cases own.method? name with
      | none => exact hrest
      | some method => rfl

/-- The search for a method ends, with the method that the class value has. -/
theorem finds
    (h : MadeInOrder made)
    {c : ClassObject}
    (hc : c ∈ made)
    (name : String) :
    (ClassHeap.of made).Finds name c.own.serial (c.method? name) :=
  h.method?_eq hc name ▸ (h.leads hc).finds name

/-- What the heap holds of a class stays the same when more classes are made. -/
theorem heap_stays
    {made' : List ClassObject}
    (h : MadeInOrder made')
    (hstart : made <+: made')
    {serial : Nat}
    {record : ClassRecord}
    (hrecord : ClassHeap.of made serial = some record) :
    ClassHeap.of made' serial = some record := by
  obtain ⟨c, hc, rfl, rfl⟩ := exists_of_heap hrecord
  exact h.heap_eq (hstart.subset hc)

end MadeInOrder
end Lox
