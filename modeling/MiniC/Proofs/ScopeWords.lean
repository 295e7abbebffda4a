import MiniC.Proofs.Framing

/-!
# Sequences of scope operations

Scopes are opened and closed, names are bound in the innermost one or at file scope, symbols of the
file scope are changed, and names are looked up. A sequence of such operations that closes what it
opens and nothing else is `ScopeOp.Balanced`. It works above the scopes that were there when it
started (`ScopeOp.run?_above`), so between opening and closing a scope it changes the file scope and
no other. What is left of it afterwards are its operations on the file scope.

A symbol is bound to the name that stands beside it, which is its own name when it is bound and may
be another one after a change. `find?` gives what the innermost scope that binds the name binds it
to.
-/

namespace MiniC

/-! ## Operations -/

/-- An operation on a chain of scopes. -/
inductive ScopeOp where
  | push
  | pop
  | bind (x : Symbol)
  | bindFile (x : Symbol)
  | updateFile (name : String) (f : Symbol → Symbol)
  | find (name : String)
  | findHere (name : String)
  | findFile (name : String)

namespace ScopeOp

/-- The scopes after an operation; none if it would close the file scope. -/
def step? : ScopeOp → ScopeChain → Option ScopeChain
  | .push, t => some t.push
  | .pop, t => t.pop?
  | .bind x, t => some (t.bind x)
  | .bindFile x, t => some (t.bindFile x)
  | .updateFile name f, t => some (t.updateFile name f)
  | .find _, t | .findHere _, t | .findFile _, t => some t

/-- The scopes after some operations in order. -/
def run? : List ScopeOp → ScopeChain → Option ScopeChain
  | [], t => some t
  | op :: more, t => (op.step? t).bind (run? more)

def isPush : ScopeOp → Bool
  | .push => true
  | _ => false

def isPop : ScopeOp → Bool
  | .pop => true
  | _ => false

/-- The operation is one on the file scope, whichever scope is the current one. -/
def changesFile : ScopeOp → Bool
  | .bindFile _ | .updateFile _ _ => true
  | _ => false

/-- As many scopes are closed as are opened, and at no point more. -/
def Balanced (w : List ScopeOp) : Prop :=
  (∀ v ∈ w.inits, v.countP isPop ≤ v.countP isPush) ∧ w.countP isPop = w.countP isPush

instance : DecidablePred Balanced := fun _ => inferInstanceAs (Decidable (_ ∧ _))

theorem run?_append (v w : List ScopeOp) (t : ScopeChain) :
    run? (v ++ w) t = (run? v t).bind (run? w) := by
  induction v generalizing t with
  | nil => rfl
  | cons op v ih =>
    rw [List.cons_append, run?, run?, Option.bind_assoc]
    exact congrArg _ (funext ih)

/-! ## Above some scopes -/

/-- The operations `w` lead from `t` to `u`, and the scopes `below` are still the outer ones there.
The file scope of `u` is the one that the operations on it lead to by themselves. -/
structure Above (below : List Scope) (w : List ScopeOp) (t u : ScopeChain) : Prop where
  run : run? w t = some u
  outer : below <:+ u.inner
  depth : u.depth + w.countP isPop = t.depth + w.countP isPush
  file : run? (w.filter changesFile) ⟨t.file, below⟩ = some ⟨u.file, below⟩

namespace Above

variable {below : List Scope} {v w : List ScopeOp} {t u u' : ScopeChain}

theorem refl (h : below <:+ t.inner) : Above below [] t t := ⟨rfl, h, rfl, rfl⟩

theorem trans (h : Above below v t u) (h' : Above below w u u') : Above below (v ++ w) t u' := by
  have hdepth := h.depth
  have hdepth' := h'.depth
  refine ⟨?_, h'.outer, ?_, ?_⟩
  · rw [run?_append, h.run, Option.bind_some, h'.run]
  · rw [List.countP_append, List.countP_append]
    omega
  · rw [List.filter_append, run?_append, h.file, Option.bind_some, h'.file]

end Above

/-- One operation changes the innermost scope or the file scope, and closes the innermost scope at
most. -/
theorem step?_above (op : ScopeOp) {below : List Scope} {t : ScopeChain} (h : below <:+ t.inner)
    (hdeep : below.length < t.depth) : ∃ u, Above below [op] t u := by
  obtain ⟨file, _ | ⟨s, rest⟩⟩ := t
  · cases hdeep
  have hrest : below <:+ rest := by
    rcases List.suffix_cons_iff.1 h with rfl | hrest
    · exact absurd hdeep (lt_irrefl _)
    · exact hrest
  cases op with
  | push => exact ⟨_, rfl, h.trans (List.suffix_cons _ _), rfl, rfl⟩
  | pop => exact ⟨_, rfl, hrest, rfl, rfl⟩
  | bind x => exact ⟨_, rfl, hrest.trans (List.suffix_cons _ _), rfl, rfl⟩
  | bindFile _ | updateFile _ _ | find _ | findHere _ | findFile _ => exact ⟨_, rfl, h, rfl, rfl⟩

/-- Operations that never close a scope of `below` leave all of them alone. -/
theorem run?_above (w : List ScopeOp) {below : List Scope} {t : ScopeChain}
    (h : below <:+ t.inner)
    (hw : ∀ v ∈ w.inits, below.length + v.countP isPop < t.depth + v.countP isPush) :
    ∃ u, Above below w t u := by
  induction w generalizing t with
  | nil => exact ⟨t, .refl h⟩
  | cons op w ih =>
    rw [List.inits_cons, List.forall_mem_cons, List.forall_mem_map] at hw
    obtain ⟨hnow, hlater⟩ := hw
    obtain ⟨u, hu⟩ := step?_above op h hnow
    have hdepth := hu.depth
    obtain ⟨u', hu'⟩ : ∃ u', Above below w u u' := by
      apply ih hu.outer
      intro v hv
      have hlt := hlater v hv
      rw [← List.singleton_append, List.countP_append, List.countP_append] at hlt
      omega
    exact ⟨u', hu.trans hu'⟩

/-- Opening a scope, balanced operations, and closing the scope. -/
theorem run?_scoped {w : List ScopeOp} (h : Balanced w) (t : ScopeChain) :
    ∃ file, run? (.push :: w ++ [.pop]) t = some ⟨file, t.inner⟩ ∧
      run? (w.filter changesFile) t = some ⟨file, t.inner⟩ := by
  obtain ⟨hnever, hclosed⟩ := h
  obtain ⟨u, hu⟩ : ∃ u, Above t.inner w t.push u := by
    apply run?_above w (List.suffix_cons _ _)
    intro v hv
    have hle := hnever v hv
    rw [ScopeChain.depth_push, ScopeChain.depth]
    omega
  -- the scope that was opened is the only one above those of `t`
  have hdepth : u.inner.length = t.inner.length + 1 := by
    have hdepth := hu.depth
    rw [hclosed] at hdepth
    exact Nat.add_right_cancel hdepth
  obtain ⟨top, htop⟩ := hu.outer
  obtain ⟨s, rfl⟩ : ∃ s, top = [s] := by
    rw [← htop, List.length_append] at hdepth
    exact List.length_eq_one_iff.1 (by omega)
  refine ⟨u.file, ?_, hu.file⟩
  have hpop : u.pop? = some ⟨u.file, t.inner⟩ := by rw [ScopeChain.pop?, ← htop]; rfl
  rw [List.cons_append, run?, step?, Option.bind_some, run?_append, hu.run, Option.bind_some, run?,
    step?, hpop]
  rfl

end ScopeOp

/-! ## Looking up names -/

theorem Scope.get?_eq_none_iff {s : Scope} {name : String} :
    s.get? name = none ↔ ∀ b ∈ s.symbols.bindings, b.1 ≠ name := by
  rw [Scope.get?, Dict.get?_eq_none_iff, Dict.keys, List.mem_map]
  simp only [not_exists, not_and, ne_eq]

namespace ScopeChain

variable {t : ScopeChain}

/-- What is found is bound in some scope, and in none inside of that one. -/
theorem find?_eq_some_iff {name : String} {x : Symbol} :
    t.find? name = some x ↔ ∃ inside s outside, t.frames = inside ++ s :: outside ∧
      (name, x) ∈ s.symbols.bindings ∧ ∀ r ∈ inside, ∀ b ∈ r.symbols.bindings, b.1 ≠ name := by
  change t.frames.findSome? (·.get? name) = some x ↔ _
  have hbound (s : Scope) : s.get? name = some x ↔ (name, x) ∈ s.symbols.bindings :=
    Dict.get?_eq_some_iff
  simp only [List.findSome?_eq_some_iff, hbound, Scope.get?_eq_none_iff]

theorem find?_of_findHere? {name : String} {x : Symbol} (h : t.findHere? name = some x) :
    t.find? name = some x := by
  obtain ⟨outer, houter⟩ : ∃ outer, t.frames = t.current :: outer := by
    obtain ⟨file, _ | ⟨s, rest⟩⟩ := t
    · exact ⟨[], rfl⟩
    · exact ⟨rest ++ [file], rfl⟩
  change t.current.get? name = some x at h
  change t.frames.findSome? (·.get? name) = some x
  rw [houter, List.findSome?_cons, h]

theorem find?_eq_findFile? {name : String}
    (h : ∀ s ∈ t.inner, ∀ b ∈ s.symbols.bindings, b.1 ≠ name) :
    t.find? name = t.findFile? name := by
  have hinner : t.inner.findSome? (·.get? name) = none :=
    List.findSome?_eq_none_iff.2 fun s hs => Scope.get?_eq_none_iff.2 (h s hs)
  rw [find?, List.findSome?_append, hinner, Option.none_or, List.findSome?_singleton, findFile?]

end ScopeChain

/-- **Closing a scope restores the outer view.** Opening a scope, any balanced operations and
closing the scope come to the same as those of the operations that are on the file scope: depth and
inner scopes are as before. What is found under a name is the symbol that the innermost scope with
that name binds to it. It is what the current scope binds to the name, if it does, and what the file
scope binds to it if no inner scope does. -/
theorem scopes_restore_outer_view :
    (∀ (t : ScopeChain) (w : List ScopeOp), ScopeOp.Balanced w →
      ∃ u, ScopeOp.run? (.push :: w ++ [.pop]) t = some u ∧
        ScopeOp.run? (w.filter ScopeOp.changesFile) t = some u ∧
        u.depth = t.depth ∧ u.inner = t.inner) ∧
    ∀ (t : ScopeChain) (name : String),
      (∀ x, t.find? name = some x ↔ ∃ inside s outside, t.frames = inside ++ s :: outside ∧
        (name, x) ∈ s.symbols.bindings ∧
        ∀ r ∈ inside, ∀ b ∈ r.symbols.bindings, b.1 ≠ name) ∧
      (∀ x, t.findHere? name = some x → t.find? name = some x) ∧
      ((∀ s ∈ t.inner, ∀ b ∈ s.symbols.bindings, b.1 ≠ name) →
        t.find? name = t.findFile? name) := by
  constructor
  · intro t w hw
    obtain ⟨file, hrun, hfile⟩ := ScopeOp.run?_scoped hw t
    exact ⟨_, hrun, hfile, rfl, rfl⟩
  · intro t name
    exact ⟨fun x => ScopeChain.find?_eq_some_iff, fun x => ScopeChain.find?_of_findHere?,
      ScopeChain.find?_eq_findFile?⟩

/-- The file scope declares a function `f`, and a function body has a variable `f`. -/
def shadowedFunction : ScopeChain :=
  (ScopeChain.empty.bindFile (.ofFunction "f" (.function .int []) false ⟨4, 5, 1, 5⟩)).push.bind
    (.ofVariable "f" .char ⟨9, 10, 1, 10⟩)

/-- In a block, `f` is bound once more, the function is defined, and then called `h` in its symbol.
A second name is bound at file scope, and one in a block inside. -/
def shadowingBlock : List ScopeOp :=
  [.bind (.ofVariable "f" .int ⟨15, 16, 2, 3⟩), .updateFile "f" fun x => { x with defined := true },
    .updateFile "f" fun x => { x with name := "h" }, .push,
    .bindFile (.ofVariable "g" .int ⟨20, 21, 2, 8⟩), .bind (.ofVariable "g" .char ⟨25, 26, 2, 13⟩),
    .find "g", .pop]

theorem shadowingBlock_restores :
    (ScopeOp.Balanced shadowingBlock ∧
      ∃ u, ScopeOp.run? (.push :: shadowingBlock ++ [.pop]) shadowedFunction = some u ∧
        ScopeOp.run? (shadowingBlock.filter ScopeOp.changesFile) shadowedFunction = some u ∧
        u.depth = 1 ∧ u.inner = shadowedFunction.inner) ∧
    shadowedFunction.find? "f" = some (.ofVariable "f" .char ⟨9, 10, 1, 10⟩) ∧
    shadowedFunction.find? "g" = shadowedFunction.findFile? "g" := by
  obtain ⟨hrestores, hfinds⟩ := scopes_restore_outer_view
  have hbalanced : ScopeOp.Balanced shadowingBlock := by decide
  refine ⟨⟨hbalanced, hrestores _ _ hbalanced⟩, ?_, ?_⟩
  · exact (hfinds shadowedFunction "f").2.1 _ (by decide)
  · exact (hfinds shadowedFunction "g").2.2 (by decide)

end MiniC
