import MiniC.Proofs.Grammar.Complete
import MiniC.Proofs.Grammar.Sound

/-!
# Operators group by precedence

An expression is a row of operands with binary operators between them, and the tree that is read
from it is the precedence tree of the row (`readExpr_groups_row`): a node over a part of the row
stands for an operator of the least precedence in that part, for the first such operator if it is an
assignment and else for the last (`Divides`, `Grouped`). A row has only one such tree
(`Grouped.unique`).

Reading decides about two operators at a time: the right operand of an operator takes another one if
that binds as tightly as `BinOp.rightBinding` asks. `divides_iff` says what this comes to for all
operators of a part. The loop keeps that every operator it has read leaves the next one out of its
right operand (`operators_group`).

An operand in a row is read as it is read by itself (`IsOperand.read`), because it goes on as long
as there are trailers, and an operator is none. `Persists` says this of readers.
-/

namespace MiniC

open Reader

/-! ## Precedence trees -/

/-- The operators `before` and `after` bind no weaker than `op`. Of several operators that bind as
weakly as `op`, it is the first if they are assignments, and else the last. -/
structure Divides (before : List BinOp) (op : BinOp) (after : List BinOp) : Prop where
  least : ∀ o ∈ before ++ after, op.precedence ≤ o.precedence
  first : op.precedence = BinOp.assign.precedence → ∀ o ∈ before, o.precedence ≠ op.precedence
  last : op.precedence ≠ BinOp.assign.precedence → ∀ o ∈ after, o.precedence ≠ op.precedence

/-- The tree of the operand `first` and of the operators after it, each with its right operand. -/
inductive Grouped : Expr → List (BinOp × Expr) → Expr → Prop
  | operand (e : Expr) : Grouped e [] e
  | node {first e left right : Expr} {op : BinOp} {before after : List (BinOp × Expr)} :
      Divides (before.map (·.1)) op (after.map (·.1)) → Grouped first before left →
      Grouped e after right →
      Grouped first (before ++ (op, e) :: after)
        (.binary op left right (left.span.join right.span))

namespace BinOp

/-- Assignment is alone on its level. -/
theorem rightBinding_cases (op : BinOp) : 0 < op.precedence ∧
    (op.precedence = BinOp.assign.precedence ∧ op.rightBinding = op.precedence ∨
      op.precedence ≠ BinOp.assign.precedence ∧ op.rightBinding = op.precedence + 1) := by
  cases op <;> decide

/-- When `o` leaves an operator after it out of its right operand. -/
theorem lt_rightBinding_iff {op o : BinOp} : op.precedence < o.rightBinding ↔
    op.precedence ≤ o.precedence ∧
      (op.precedence = BinOp.assign.precedence → o.precedence ≠ op.precedence) := by
  have hop := op.rightBinding_cases
  have ho := o.rightBinding_cases
  have hone : BinOp.assign.precedence = 1 := rfl
  omega

/-- When `op` takes an operator after it into its right operand. -/
theorem rightBinding_le_iff {op o : BinOp} : op.rightBinding ≤ o.precedence ↔
    op.precedence ≤ o.precedence ∧
      (op.precedence ≠ BinOp.assign.precedence → o.precedence ≠ op.precedence) := by
  have hop := op.rightBinding_cases
  have hone : BinOp.assign.precedence = 1 := rfl
  omega

/-- An operator `q` that is left out of the right operand of `op` is left out by all that `op` is
above: the operators that leave `op` out, and those that its right operand has taken. -/
theorem lt_rightBinding_of_out {done taken : List (BinOp × Expr)} {q op : BinOp} {e : Expr}
    (hq : q.precedence < op.rightBinding)
    (hdone : ∀ o ∈ done.map (·.1), op.precedence < o.rightBinding)
    (htaken : ∀ o ∈ taken.map (·.1), op.rightBinding ≤ o.precedence) :
    ∀ o ∈ (done ++ (op, e) :: taken).map (·.1), q.precedence < o.rightBinding := by
  have hop := op.rightBinding_cases
  rw [List.map_append, List.map_cons, List.forall_mem_append, List.forall_mem_cons]
  refine ⟨fun o ho => ?_, hq, fun o ho => ?_⟩
  · have hlt := hdone o ho
    omega
  · have hle := htaken o ho
    have ho := o.rightBinding_cases
    omega

end BinOp

theorem divides_iff {before after : List BinOp} {op : BinOp} :
    Divides before op after ↔
      (∀ o ∈ before, op.precedence < o.rightBinding) ∧
        ∀ o ∈ after, op.rightBinding ≤ o.precedence := by
  simp only [BinOp.lt_rightBinding_iff, BinOp.rightBinding_le_iff]
  constructor
  · intro h
    obtain ⟨hbefore, hafter⟩ := List.forall_mem_append.1 h.least
    exact ⟨fun o ho => ⟨hbefore o ho, fun hop => h.first hop o ho⟩,
      fun o ho => ⟨hafter o ho, fun hop => h.last hop o ho⟩⟩
  · rintro ⟨hbefore, hafter⟩
    exact {
      least := List.forall_mem_append.2
        ⟨fun o ho => (hbefore o ho).1, fun o ho => (hafter o ho).1⟩
      first := fun hop o ho => (hbefore o ho).2 hop
      last := fun hop o ho => (hafter o ho).2 hop }

/-- Of two operators of a part, not both divide it. -/
theorem Divides.not_divides {u v w : List BinOp} {op op' : BinOp}
    (h : Divides u op (v ++ op' :: w)) (h' : Divides (u ++ op :: v) op' w) : False := by
  have hle : op.precedence ≤ op'.precedence := h.least op' (by simp)
  have hge : op'.precedence ≤ op.precedence := h'.least op (by simp)
  have heq : op'.precedence = op.precedence := Nat.le_antisymm hge hle
  by_cases hassign : op.precedence = BinOp.assign.precedence
  · exact h'.first (heq.trans hassign) op (by simp) heq.symm
  · exact h.last hassign op' (by simp) heq

theorem Divides.unique {before after before' after' : List (BinOp × Expr)} {op op' : BinOp}
    {e e' : Expr} (h : Divides (before.map (·.1)) op (after.map (·.1)))
    (h' : Divides (before'.map (·.1)) op' (after'.map (·.1)))
    (heq : before ++ (op, e) :: after = before' ++ (op', e') :: after') :
    before = before' ∧ op = op' ∧ e = e' ∧ after = after' := by
  rcases List.append_eq_append_iff.1 heq with ⟨v, rfl, hv⟩ | ⟨v, rfl, hv⟩
  · cases v with
    | nil => simp_all
    | cons x v =>
      rw [List.cons_append] at hv
      obtain ⟨rfl, rfl⟩ := List.cons.inj hv
      simp only [List.map_append, List.map_cons] at h h'
      exact (h.not_divides h').elim
  · cases v with
    | nil => simp_all
    | cons x v =>
      rw [List.cons_append] at hv
      obtain ⟨rfl, rfl⟩ := List.cons.inj hv
      simp only [List.map_append, List.map_cons] at h h'
      exact (h'.not_divides h).elim

/-- A row has no more than one tree. -/
theorem Grouped.unique {first : Expr} {row : List (BinOp × Expr)} {tree tree' : Expr}
    (h : Grouped first row tree) (h' : Grouped first row tree') : tree' = tree := by
  induction h generalizing tree' with
  | operand e =>
    generalize hrow : [] = row at h'
    cases h' with
    | operand => rfl
    | node => simp at hrow
  | node hdiv _ _ ihleft ihright =>
    generalize hrow : _ ++ _ :: _ = row at h'
    cases h' with
    | operand => simp at hrow
    | node hdiv' hleft' hright' =>
      obtain ⟨rfl, rfl, rfl, rfl⟩ := hdiv.unique hdiv' hrow
      rw [ihleft hleft', ihright hright']

/-! ## Readers with more tokens after them -/

section

variable {α β : Type} {q : Token → Option α} {s : Input} {last last' : Span} {t : Token}
  {r : List Token}

theorem take?_cons {a : α} (h : q t = some a) :
    take? q ⟨last, t :: r⟩ = .ok (some a, ⟨t.span, r⟩) := by
  simp only [take?, h]

theorem take?_stop (h : ∀ t ∈ s.rest.head?, q t = none) : take? q s = .ok (none, s) := by
  obtain ⟨last, _ | ⟨t, r⟩⟩ := s
  · rfl
  · have ht : q t = none := h t rfl
    simp only [take?, ht]

theorem take?_nil (h : s.rest = []) : take? q s = .ok (none, s) := take?_stop (by simp [h])

/-- What comes after two readers that end alike. -/
theorem bind_congr_run {m m' : Reader α} {f : α → Reader β} {s s' : Input} (h : m s = m' s') :
    (m >>= f) s = (m' >>= f) s' := by
  cases hrun : m' s' with
  | error e => rw [bind_error (h.trans hrun), bind_error hrun]
  | ok r => rw [bind_ok (h.trans hrun), bind_ok hrun]

/-- The token taken before the next one matters only until that one is taken. -/
theorem take?_last {f : Option α → Reader β} (hf : f none ⟨last, t :: r⟩ = f none ⟨last', t :: r⟩) :
    (take? q >>= f) ⟨last, t :: r⟩ = (take? q >>= f) ⟨last', t :: r⟩ := by
  cases hq : q t with
  | some a => rw [bind_ok (take?_cons hq), bind_ok (take?_cons hq)]
  | none =>
    have hstop (last : Span) : take? q ⟨last, t :: r⟩ = .ok (none, ⟨last, t :: r⟩) :=
      take?_stop (by simp [hq])
    rw [bind_ok (hstop last), bind_ok (hstop last'), hf]

end

/-- The input with more tokens at its end. -/
def Input.before (s : Input) (k : List Token) : Input := ⟨s.last, s.rest ++ k⟩

theorem Input.kind_before {s : Input} (hs : s.rest ≠ []) (k : List Token) :
    (s.before k).kind = s.kind := by
  obtain ⟨last, _ | ⟨t, r⟩⟩ := s
  · exact absurd rfl hs
  · rfl

/-- Where the reader succeeds, it does the same if the tokens `k` are put after its input, provided
that `P` holds in case it has taken all tokens. -/
def Persists (k : List Token) (P : Prop) (m : Reader α) (s : Input) : Prop :=
  ∀ a t, m s = .ok (a, t) → (t.rest = [] → P) → m (s.before k) = .ok (a, t.before k)

namespace Persists

variable {α β : Type} {k : List Token} {P Q : Prop} {m : Reader α} {f : α → Reader β} {s : Input}

protected theorem pure (a : α) : Persists k P (pure a) s := by
  rintro _ _ ⟨⟩ _
  rfl

protected theorem fail (φ : Input → SyntaxError) : Persists k P (fail φ : Reader α) s := by
  rintro _ _ ⟨⟩

/-- What the first reader asks for if it takes all tokens has to follow from what the row asks for
then. -/
protected theorem bind (hm : Persists k P m s)
    (hf : ∀ a t, m s = .ok (a, t) → Persists k Q (f a) t)
    (hP : ∀ a t b u, t.rest = [] → f a t = .ok (b, u) → (u.rest = [] → Q) → P) :
    Persists k Q (m >>= f) s := by
  intro b u hrun hQ
  cases hfirst : m s with
  | error e => cases hrun.symm.trans (bind_error hfirst)
  | ok r =>
    obtain ⟨a, t⟩ := r
    rw [bind_ok hfirst] at hrun
    rw [bind_ok (hm a t hfirst fun ht => hP a t b u ht hrun hQ)]
    exact hf a t hfirst b u hrun hQ

theorem look {φ : Input → α} (hφ : φ (s.before k) = φ s) (hf : Persists k P (f (φ s)) s) :
    Persists k P (Reader.look φ >>= f) s := by
  intro b u hrun hP
  rw [bind_ok (m := Reader.look φ) rfl] at hrun ⊢
  rw [hφ]
  exact hf b u hrun hP

section

variable {f : Option α → Reader β} (hsome : ∀ a t, t.size < s.size → Persists k P (f (some a)) t)

include hsome

theorem take? {q : Token → Option α} (hs : s.rest ≠ []) (hnone : Persists k P (f none) s) :
    Persists k P (Reader.take? q >>= f) s := by
  obtain ⟨last, _ | ⟨t, r⟩⟩ := s
  · exact absurd rfl hs
  · intro b u hrun hP
    cases hq : q t with
    | some a =>
      rw [bind_ok (take?_cons hq)] at hrun
      rw [Input.before, List.cons_append, bind_ok (take?_cons hq)]
      exact hsome a ⟨t.span, r⟩ (Nat.lt_succ_self _) b u hrun hP
    | none =>
      rw [bind_ok (take?_stop (by simp [hq]))] at hrun
      rw [bind_ok (take?_stop (by simp [Input.before, hq]))]
      exact hnone b u hrun hP

/-- A loop that ends where no token is accepted. If it ends with the input, the first token of `k`
must not be accepted either. -/
theorem loop {q : Token → Option α} {b : β} (hnone : f none = pure b)
    (hP : P → ∀ c ∈ k.head?, q c = none) : Persists k P (Reader.take? q >>= f) s := by
  by_cases hs : s.rest = []
  · obtain ⟨last, rest⟩ := s
    obtain rfl : rest = [] := hs
    intro a u hrun hu
    rw [bind_ok (take?_nil rfl), hnone] at hrun
    cases hrun
    rw [Input.before, List.nil_append, bind_ok (take?_stop (hP (hu rfl))), hnone]
    rfl
  · exact take? hsome hs (hnone ▸ .pure b)

end

/-- A reader that has to take a token. -/
theorem of_ne_nil (hlt : ∀ a t, m s = .ok (a, t) → t.size < s.size)
    (h : s.rest ≠ [] → Persists k P m s) : Persists k P m s := by
  by_cases hs : s.rest = []
  · intro a t hrun
    have hlt := hlt a t hrun
    simp [Input.size, hs] at hlt
  · exact h hs

/-- A reader that has to leave a token. -/
theorem of_some_left (hlt : ∀ a t, m s = .ok (a, t) → t.size < s.size + 1)
    (h : s.rest ≠ [] → Persists k False m s) : Persists k False m s := by
  by_cases hs : s.rest = []
  · intro a t hrun ht
    have hlt := hlt a t hrun
    exact (ht (by simpa [Input.size, hs] using hlt)).elim
  · exact h hs

theorem mark (x : Mark) : Persists k P (Reader.mark x) s := by
  refine of_ne_nil (fun _ _ hrun => Reading.size_lt hrun) fun hs => ?_
  rw [mark_eq]
  exact take? (fun span _ _ => .pure span) hs (.fail _)

theorem ident : Persists k P Reader.ident s := by
  refine of_ne_nil (fun _ _ hrun => Reading.size_lt hrun) fun hs => ?_
  rw [ident_eq]
  exact take? (fun id _ _ => .pure id) hs (.fail _)

/-- A reader that goes on after another and may take nothing. -/
theorem bind_loop (hm : Persists k P m s) (hPQ : Q → P)
    (hf : ∀ a t, m s = .ok (a, t) → Persists k Q (f a) t)
    (hlt : ∀ a t b u, f a t = .ok (b, u) → u.size < t.size + 1) : Persists k Q (m >>= f) s := by
  refine hm.bind hf fun a t b u ht hrun hQ => hPQ (hQ ?_)
  have hlt := hlt a t b u hrun
  simpa [Input.size, ht] using hlt

/-- A mark after a reader is a token that the reader has not taken. -/
theorem bind_mark {x : Mark} {f : α → Span → Reader β} (hm : Persists k P m s)
    (hlt : ∀ a t, m s = .ok (a, t) → t.size < s.size + 1)
    (hf : ∀ a b t, t.size < s.size → Persists k Q (f a b) t) :
    Persists k Q (m >>= fun a => Reader.mark x >>= f a) s := by
  refine hm.bind (fun a t hrun => ?_) fun a t b u ht hrun => ?_
  · refine (mark (P := True) x).bind (fun b u hmark => ?_) fun _ _ _ _ _ _ _ => trivial
    have hlt := hlt a t hrun
    have hlt' : u.size < t.size := Reading.size_lt hmark
    exact hf a b u (by omega)
  · cases hmark : Reader.mark x t with
    | error e => cases hrun.symm.trans (bind_error hmark)
    | ok r =>
      obtain ⟨span, v⟩ := r
      have hlt : v.size < t.size := Reading.size_lt hmark
      simp [Input.size, ht] at hlt

end Persists

section

variable {k : List Token}

mutual

theorem expr_persists (least : Nat) (s : Input) :
    Persists k (∀ c ∈ k.head?, c.kind.trailer? = none ∧ c.kind.binOp? = none) (expr least) s := by
  rw [expr_eq]
  refine (operand_persists s).bind_loop (fun hk c hc => (hk c hc).1) (fun left t hrun => ?_)
    fun _ _ _ _ hrun => Reading.size_lt hrun
  have hlt : t.size < s.size := Reading.size_lt hrun
  exact operators_persists least left t
termination_by 6 * s.size + 3

theorem operators_persists (least : Nat) (left : Expr) (s : Input) :
    Persists k (∀ c ∈ k.head?, c.kind.trailer? = none ∧ c.kind.binOp? = none)
      (operators least left) s := by
  rw [operators_eq]
  refine .loop (b := left) (fun op t hlt => ?_) rfl fun hk c hc => ?_
  · refine (expr_persists op.rightBinding t).bind_loop id (fun right u hrun => ?_)
      fun _ _ _ _ hrun => Reading.size_lt hrun
    have hlt' : u.size < t.size := Reading.size_lt hrun
    exact operators_persists least _ u
  · simp only [(hk c hc).2, Option.filter_none]
termination_by 6 * s.size + 4

theorem operand_persists (s : Input) :
    Persists k (∀ c ∈ k.head?, c.kind.trailer? = none) operand s := by
  refine .of_ne_nil (fun _ _ hrun => Reading.size_lt hrun) fun hs => ?_
  rw [operand_eq]
  refine .take? (fun op t hlt => .look rfl ?_) hs ?_
  · exact (operand_persists t).bind_loop id (fun e _ _ => .pure _) fun e t b u hrun => by
      cases hrun
      exact Nat.lt_succ_self _
  · refine (primary_persists s).bind_loop (fun _ => trivial) (fun base t hrun => ?_)
      fun _ _ _ _ hrun => Reading.size_lt hrun
    have hlt : t.size < s.size := Reading.size_lt hrun
    exact trailers_persists base t
termination_by 6 * s.size + 2

theorem primary_persists (s : Input) : Persists k True primary s := by
  refine .of_ne_nil (fun _ _ hrun => Reading.size_lt hrun) fun hs => ?_
  rw [primary_eq]
  refine .take? (fun value t _ => .look rfl (.pure _)) hs ?_
  refine .take? (fun id t _ => ?_) hs (.take? (fun left t hlt => ?_) hs (.fail _))
  · exact .pure _
  · refine (expr_persists 0 t).bind_mark (fun _ _ hrun => ?_) fun e _ _ _ => .pure e
    exact Nat.lt_succ_of_lt (Reading.size_lt hrun)
termination_by 6 * s.size + 1

theorem trailers_persists (base : Expr) (s : Input) :
    Persists k (∀ c ∈ k.head?, c.kind.trailer? = none) (trailers base) s := by
  rw [trailers_eq]
  refine .loop (b := base) (fun trailer t hlt => ?_) rfl id
  cases trailer with
  | call =>
    refine (args_persists t).bind_mark (fun _ _ hrun => Reading.size_lt hrun) fun _ _ u hlt' => ?_
    exact trailers_persists _ u
  | index =>
    refine (expr_persists 0 t).bind_mark
      (fun _ _ hrun => Nat.lt_succ_of_lt (Reading.size_lt hrun)) fun _ _ u hlt' => ?_
    exact trailers_persists _ u
  | member arrow =>
    refine (Persists.ident (P := True)).bind (fun field u hrun => ?_) fun _ _ _ _ _ _ _ => trivial
    have hlt' : u.size < t.size := Reading.size_lt hrun
    exact trailers_persists _ u
termination_by 6 * s.size

theorem args_persists (s : Input) : Persists k False args s := by
  refine .of_some_left (fun _ _ hrun => Reading.size_lt hrun) fun hs => ?_
  rw [args_eq]
  refine .look (by rw [Input.stopsAt, Input.kind_before hs, ← Input.stopsAt]) ?_
  split
  · exact .pure []
  · refine (expr_persists 0 s).bind (fun first t hrun => ?_) fun first t b u ht hrun hu => ?_
    · have hlt : t.size < s.size := Reading.size_lt hrun
      refine .loop (b := [first]) (fun comma u hlt' => ?_) rfl False.elim
      exact (args_persists u).bind_loop id (fun rest _ _ => .pure _) fun rest t b u hrun => by
        cases hrun
        exact Nat.lt_succ_self _
    · -- there is no comma, so the list ends with the input
      have hstop : (Except.ok ([first], t) : Except SyntaxError _) = .ok (b, u) :=
        (bind_ok (take?_nil ht)).symm.trans hrun
      cases hstop
      exact (hu ht).elim
termination_by 6 * s.size + 5

end

end

/-! ## Operands -/

/-- The tokens, by themselves, are read as the operand `e`. -/
def IsOperand (ts : List Token) (e : Expr) : Prop :=
  ∃ p, (Input.ofTokens ts).readOperand = .ok p ∧ p.value = e ∧ p.input.rest = []

/-- An operand does not depend on the token before it. -/
theorem operand_last (last last' : Span) (t : Token) (r : List Token) :
    operand ⟨last, t :: r⟩ = operand ⟨last', t :: r⟩ := by
  have hprimary : primary ⟨last, t :: r⟩ = primary ⟨last', t :: r⟩ := by
    rw [primary_eq]
    exact take?_last (take?_last (take?_last rfl))
  rw [operand_eq]
  exact take?_last (bind_congr_run hprimary)

theorem IsOperand.read {ts k : List Token} {e : Expr} (h : IsOperand ts e) (last : Span)
    (hk : ∀ c ∈ k.head?, c.kind.trailer? = none) :
    ∃ last', operand ⟨last, ts ++ k⟩ = .ok (e, ⟨last', k⟩) := by
  obtain ⟨⟨a, ⟨last', rest⟩, hlt⟩, hrun, rfl, rfl⟩ := h
  have hplain : operand (.ofTokens ts) = .ok (a, ⟨last', []⟩) := congrArg Reading.plain hrun
  cases ts with
  | nil => simp [Input.size, Input.ofTokens] at hlt
  | cons t r =>
    have hread := operand_persists (k := k) _ _ _ hplain fun _ => hk
    refine ⟨last', ?_⟩
    rw [List.cons_append, operand_last _ (Input.ofTokens (t :: r)).last]
    exact hread

/-- The operands of the grammar are read. -/
theorem Derives.isOperand {lax : Bool} {ts : List Token}
    (h : Derives lax .unary (ts.map (·.kind))) : ∃ e, IsOperand ts e := by
  obtain ⟨v, h⟩ := h
  have htakes : TakesOperand (ts.map (·.kind)) := h.accepts
  have hkinds : (Input.ofTokens ts).kinds = ts.map (·.kind) ++ [] := (List.append_nil _).symm
  obtain ⟨e, t, hrun, ht⟩ := (htakes [] (by simp)).run hkinds
  obtain ⟨p, hp, rfl, rfl⟩ := Reading.of_plain hrun
  exact ⟨p.value, p, hp, rfl, List.map_eq_nil_iff.1 ht⟩

/-! ## Rows -/

/-- The token `x.1` is an operator, and the tokens `x.2` are its right operand. -/
def IsTerm (x : Token × List Token) (y : BinOp × Expr) : Prop :=
  x.1.kind.binOp? = some y.1 ∧ IsOperand x.2 y.2

/-- The tokens of operators with their right operands. -/
def rowTokens (xs : List (Token × List Token)) : List Token := xs.flatMap fun x => x.1 :: x.2

theorem rowTokens_cons (x : Token × List Token) (xs : List (Token × List Token))
    (k : List Token) : rowTokens (x :: xs) ++ k = x.1 :: (x.2 ++ (rowTokens xs ++ k)) := by
  simp [rowTokens]

section

variable {xs : List (Token × List Token)} {row : List (BinOp × Expr)} {k : List Token}

/-- No operator of a row goes on with the operand before it. -/
theorem trailer?_rowTokens (h : List.Forall₂ IsTerm xs row)
    (hk : ∀ c ∈ k.head?, c.kind.trailer? = none ∧ c.kind.binOp? = none) :
    ∀ c ∈ (rowTokens xs ++ k).head?, c.kind.trailer? = none := by
  cases h with
  | nil => exact fun c hc => (hk c hc).1
  | cons hx _ =>
    rintro c ⟨⟩
    exact Kind.trailer?_of_binOp? hx.1

/-- The loop ends in front of an operator that binds too weakly. -/
theorem operators_stop {least : Nat} {s : Input}
    (h : ∀ c ∈ s.rest.head?, ∀ op, c.kind.binOp? = some op → op.precedence < least) (left : Expr) :
    operators least left s = .ok (left, s) := by
  refine operators_weak (fun c hc op hop => ?_) left
  rw [Input.kinds, List.head?_map] at hc
  obtain ⟨t, ht, rfl⟩ := Option.map_eq_some_iff.1 hc
  exact h t ht op hop

/-- One turn of the loop: an operator, its right operand with the operators that this takes, and the
loop again. -/
theorem operators_step (left : Expr) (last : Span) {least : Nat} {e : Expr} {op : BinOp} {c : Token}
    {ts : List Token} (hc : c.kind.binOp? = some op) (hle : least ≤ op.precedence)
    (he : IsOperand ts e) (hk : ∀ c ∈ k.head?, c.kind.trailer? = none) :
    ∃ last', operators least left ⟨last, c :: (ts ++ k)⟩ =
      (operators op.rightBinding e >>= fun right =>
        operators least (.binary op left right (left.span.join right.span))) ⟨last', k⟩ := by
  obtain ⟨last', hread⟩ := he.read c.span hk
  have hsome : c.kind.binOp?.filter (least ≤ ·.precedence) = some op := by
    rw [hc, Option.filter_some_pos (by simpa using hle)]
  have htake : operator? least ⟨last, c :: (ts ++ k)⟩ = .ok (some op, ⟨c.span, ts ++ k⟩) := by
    rw [operator?, kind?]
    exact take?_cons hsome
  have hexpr : expr op.rightBinding ⟨c.span, ts ++ k⟩ = operators op.rightBinding e ⟨last', k⟩ := by
    rw [expr_eq, bind_ok hread]
  refine ⟨last', ?_⟩
  rw [operators_eq, bind_ok htake]
  exact bind_congr_run hexpr

/-- Reading goes on with a row from the tree `left` of what was read, `done`. It takes the operators
that bind as tightly as `least`, up to the first one that does not. -/
theorem operators_group (least : Nat) (last : Span) {first left : Expr}
    {done : List (BinOp × Expr)} (hdone : Grouped first done left)
    (hrow : List.Forall₂ IsTerm xs row)
    (hk : ∀ c ∈ k.head?, c.kind.trailer? = none ∧ c.kind.binOp? = none)
    (hnext : ∀ q ∈ row.head?, ∀ o ∈ done.map (·.1), q.1.precedence < o.rightBinding) :
    ∃ taken more ys tree last', row = taken ++ more ∧ List.Forall₂ IsTerm ys more ∧
      operators least left ⟨last, rowTokens xs ++ k⟩ = .ok (tree, ⟨last', rowTokens ys ++ k⟩) ∧
      Grouped first (done ++ taken) tree ∧ (∀ o ∈ taken.map (·.1), least ≤ o.precedence) ∧
      ∀ q ∈ more.head?, q.1.precedence < least := by
  induction hlen : row.length using Nat.strongRecOn
    generalizing least first left done row last xs with
  | ind n ih =>
    cases hrow with
    | nil =>
      refine ⟨[], [], [], left, last, rfl, .nil, operators_stop ?_ left, by simpa, by simp, by simp⟩
      intro c hc op hop
      cases (hk c hc).2.symm.trans hop
    | @cons x y xs row hx hrow =>
      obtain ⟨c, ts⟩ := x
      obtain ⟨op, e⟩ := y
      obtain ⟨hc, he⟩ : c.kind.binOp? = some op ∧ IsOperand ts e := hx
      by_cases hle : least ≤ op.precedence
      · obtain ⟨last₁, hstep⟩ := operators_step left last hc hle he
          (trailer?_rowTokens hrow hk)
        have hlt : row.length < n := by simp at hlen; omega
        -- the right operand takes a part of the row, and the loop goes on with the rest
        obtain ⟨taken, rest, ys, right, last₂, rfl, hrest, hright, hgrouped, hin, hout⟩ :=
          ih _ hlt op.rightBinding last₁ (.operand e) hrow (by simp) rfl
        have hop : ∀ o ∈ done.map (·.1), op.precedence < o.rightBinding := hnext (op, e) rfl
        have hlt' : rest.length < n := by simp at hlt; omega
        obtain ⟨taken', more, zs, tree, last₃, rfl, hmore, hrun, htree, hin', hout'⟩ :=
          ih _ hlt' least last₂ (.node (divides_iff.2 ⟨hop, hin⟩) hdone hgrouped) hrest
            (fun q hq => BinOp.lt_rightBinding_of_out (hout q hq) hop hin) rfl
        refine ⟨(op, e) :: (taken ++ taken'), more, zs, tree, last₃, by simp, hmore, ?_,
          by simpa using htree, ?_, hout'⟩
        · rw [rowTokens_cons, hstep, bind_ok hright]
          exact hrun
        · rw [List.map_cons, List.map_append, List.forall_mem_cons, List.forall_mem_append]
          refine ⟨hle, fun o ho => ?_, hin'⟩
          have hbinding := op.rightBinding_cases
          have hge := hin o ho
          omega
      · refine ⟨[], (op, e) :: row, (c, ts) :: xs, left, last, rfl, .cons ⟨hc, he⟩ hrow,
          operators_stop ?_ left, by simpa, by simp, by simpa using hle⟩
        rintro _ ⟨⟩ op' hop'
        obtain rfl : op = op' := Option.some.inj (hc.symm.trans hop')
        omega

/-- Without a bound on their precedence, all operators are taken. -/
theorem expr_group (last : Span) {first : Expr} {ts : List Token} (hfirst : IsOperand ts first)
    (hrow : List.Forall₂ IsTerm xs row)
    (hk : ∀ c ∈ k.head?, c.kind.trailer? = none ∧ c.kind.binOp? = none) :
    ∃ tree last', expr 0 ⟨last, ts ++ (rowTokens xs ++ k)⟩ = .ok (tree, ⟨last', k⟩) ∧
      Grouped first row tree := by
  obtain ⟨last₁, hread⟩ := hfirst.read last (trailer?_rowTokens hrow hk)
  obtain ⟨taken, more, ys, tree, last₂, rfl, hmore, hrun, hgrouped, -, hout⟩ :=
    operators_group 0 last₁ (.operand first) hrow hk (by simp)
  cases hmore with
  | nil =>
    refine ⟨tree, last₂, ?_, by simpa using hgrouped⟩
    rw [expr_eq, bind_ok hread]
    exact hrun
  | cons => exact absurd (hout _ rfl) (Nat.not_lt_zero _)

end

/-- **Precedence.** Operands of the grammar with binary operators between them, in front of a token
that is neither an operator nor a trailer, are read to their end. Each operand is what it is by
itself, and the tree of all is the only one that has them and the operators in their order and in
which every node divides its part of the row at an operator of the least precedence: the first one
if it is an assignment, and else the last. -/
theorem readExpr_groups_row (last : Span) (ts : List Token) (xs : List (Token × List Token))
    (k : List Token)
    (hts : Derives true .unary (ts.map (·.kind)))
    (hxs : ∀ x ∈ xs, x.1.kind.binOp?.isSome ∧ Derives true .unary (x.2.map (·.kind)))
    (hk : ∀ c ∈ k.head?, c.kind.trailer? = none ∧ c.kind.binOp? = none) :
    ∃ first row p, IsOperand ts first ∧ List.Forall₂ IsTerm xs row ∧
      Input.readExpr 0 ⟨last, ts ++ (rowTokens xs ++ k)⟩ = .ok p ∧ p.input.rest = k ∧
      Grouped first row p.value ∧ ∀ tree, Grouped first row tree → tree = p.value := by
  have hterms : ∀ x ∈ xs, ∃ y, IsTerm x y := by
    intro x hx
    obtain ⟨op, hop⟩ := Option.isSome_iff_exists.1 (hxs x hx).1
    obtain ⟨e, he⟩ := (hxs x hx).2.isOperand
    exact ⟨(op, e), hop, he⟩
  have hrow : ∃ row, List.Forall₂ IsTerm xs row := by
    clear hxs
    induction xs with
    | nil => exact ⟨[], .nil⟩
    | cons x xs ih =>
      obtain ⟨⟨y, hy⟩, hmore⟩ := List.forall_mem_cons.1 hterms
      obtain ⟨row, hrow⟩ := ih hmore
      exact ⟨y :: row, .cons hy hrow⟩
  obtain ⟨first, hfirst⟩ := hts.isOperand
  obtain ⟨row, hrow⟩ := hrow
  obtain ⟨tree, last', hrun, hgrouped⟩ := expr_group last hfirst hrow hk
  obtain ⟨p, hp, rfl, hinput⟩ := Reading.of_plain hrun
  exact ⟨first, row, p, hfirst, hrow, hp, by rw [hinput], hgrouped, fun _ h => hgrouped.unique h⟩

/-- Two assignments, two subtractions and a product between them. -/
def mixedRow : String := "a = b - -c - d * (e) = f;"

/-- The operators of `mixedRow`, each with its right operand. -/
def mixedTerms : List (Token × List Token) :=
  [(⟨.mark .assign, ⟨2, 3, 1, 3⟩⟩, [⟨.ident "b", ⟨4, 5, 1, 5⟩⟩]),
   (⟨.mark .minus, ⟨6, 7, 1, 7⟩⟩, [⟨.mark .minus, ⟨8, 9, 1, 9⟩⟩, ⟨.ident "c", ⟨9, 10, 1, 10⟩⟩]),
   (⟨.mark .minus, ⟨11, 12, 1, 12⟩⟩, [⟨.ident "d", ⟨13, 14, 1, 14⟩⟩]),
   (⟨.mark .star, ⟨15, 16, 1, 16⟩⟩, [⟨.mark .leftParen, ⟨17, 18, 1, 18⟩⟩,
     ⟨.ident "e", ⟨18, 19, 1, 19⟩⟩, ⟨.mark .rightParen, ⟨19, 20, 1, 20⟩⟩]),
   (⟨.mark .assign, ⟨21, 22, 1, 22⟩⟩, [⟨.ident "f", ⟨23, 24, 1, 24⟩⟩])]

/-- `a = (((b - (-c)) - (d * e)) = f)` -/
def mixedTree : Expr :=
  .binary .assign (.name ⟨"a", .blank⟩) (.binary .assign
    (.binary .sub (.binary .sub (.name ⟨"b", .blank⟩) (.unary .neg (.name ⟨"c", .blank⟩) .blank)
      .blank) (.binary .mul (.name ⟨"d", .blank⟩) (.name ⟨"e", .blank⟩) .blank) .blank)
    (.name ⟨"f", .blank⟩) .blank) .blank

theorem mixedRow_groups :
    Token.ofSource mixedRow = [⟨.ident "a", ⟨0, 1, 1, 1⟩⟩] ++ (rowTokens mixedTerms ++
      [⟨.mark .semicolon, ⟨24, 25, 1, 25⟩⟩, ⟨.eof, ⟨25, 25, 1, 26⟩⟩]) ∧
    ∃ first row p, IsOperand [⟨.ident "a", ⟨0, 1, 1, 1⟩⟩] first ∧
      List.Forall₂ IsTerm mixedTerms row ∧
      Input.readExpr 0 (.ofTokens (Token.ofSource mixedRow)) = .ok p ∧
      Grouped first row p.value ∧ (∀ tree, Grouped first row tree → tree = p.value) ∧
      p.value.erase = mixedTree := by
  have htokens : Token.ofSource mixedRow = [⟨.ident "a", ⟨0, 1, 1, 1⟩⟩] ++ (rowTokens mixedTerms ++
      [⟨.mark .semicolon, ⟨24, 25, 1, 25⟩⟩, ⟨.eof, ⟨25, 25, 1, 26⟩⟩]) := by decide +kernel
  have htree : (expr 0 (.ofTokens (Token.ofSource mixedRow))).map (·.1.erase) = .ok mixedTree := by
    simp only [htokens, rowTokens, mixedTerms, List.flatMap_cons, List.flatMap_nil]
    cbv
  have hname {name : String} (h : isName name) : Phrase true .unary [.ident name] [.ident name] :=
    .trailed (.primary (.name h))
  have hterms : ∀ x ∈ mixedTerms,
      x.1.kind.binOp?.isSome ∧ Derives true .unary (x.2.map (·.kind)) := by
    have hneg : Derives true .unary [.mark .minus, .ident "c"] :=
      (Phrase.unary (by decide) (hname (by decide))).derives
    have hparen : Derives true .unary (parens [.ident "e"]) :=
      (Phrase.trailed (.primary (.paren ((hname (by decide)).operand (by omega))))).derives
    simp only [mixedTerms, List.forall_mem_cons]
    exact ⟨⟨rfl, (hname (by decide)).derives⟩, ⟨rfl, hneg⟩, ⟨rfl, (hname (by decide)).derives⟩,
      ⟨rfl, hparen⟩, ⟨rfl, (hname (by decide)).derives⟩, by simp⟩
  have hmain := readExpr_groups_row ⟨0, 0, 1, 1⟩ [⟨.ident "a", ⟨0, 1, 1, 1⟩⟩] mixedTerms
    [⟨.mark .semicolon, ⟨24, 25, 1, 25⟩⟩, ⟨.eof, ⟨25, 25, 1, 26⟩⟩]
    (hname (by decide)).derives hterms (by simp [Kind.trailer?, Kind.binOp?, BinOp.ofMark?])
  rw [← htokens] at hmain
  obtain ⟨first, row, p, hfirst, hrow, hread, -, hgrouped, hunique⟩ := hmain
  refine ⟨htokens, first, row, p, hfirst, hrow, hread, hgrouped, hunique, ?_⟩
  have hplain : expr 0 (.ofTokens (Token.ofSource mixedRow)) = .ok (p.value, p.input) :=
    congrArg Reading.plain hread
  rw [hplain] at htree
  exact Except.ok.inj htree

end MiniC
