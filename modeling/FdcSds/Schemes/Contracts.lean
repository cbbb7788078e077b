import FdcSds.Schemes.Programs
import Mathlib.Data.List.Induction

/-! Contracts for programs over calls.

    A contract says, over a ghost state `G`, which calls a program may make, which answers it may rely
    on, and what the ghost state is after an answer. `Obeys` is the weakest precondition of a program
    under a contract: every call is allowed where it is made, and the result meets `Q`. A world keeps a
    contract when its answers are the promised ones; a program that obeys the contract then makes only
    allowed calls in it (`Obeys.sound`).

        g ──call c, may g c──▶ answer r, gives g c r ──▶ next g c r -/

namespace Schemes

/-- What a program may call, what it relies on, and how the ghost state moves. -/
structure Contract (C : Type) (R : C → Type) (G : Type) where
  may : G → C → Prop
  gives : G → (c : C) → R c → Prop
  next : G → (c : C) → R c → G

/-- A call that was made, with its answer. -/
abbrev Op (C : Type) (R : C → Type) : Type := (c : C) × R c

variable {C : Type} {R : C → Type} {G α β σ : Type}

/-- The calls a program makes in a world, in order. -/
def Prog.trace (world : σ → (c : C) → σ × R c) : σ → Prog C R α → List (Op C R)
  | _, .ret _ => []
  | s, .call c k => ⟨c, (world s c).2⟩ :: trace world (world s c).1 (k (world s c).2)

namespace Prog

variable {world : σ → (c : C) → σ × R c}

@[simp] theorem trace_pure (s : σ) (a : α) : trace world s (pure a : Prog C R α) = [] := rfl

@[simp] theorem trace_ask (s : σ) (c : C) :
    trace world s (ask c : Prog C R (R c)) = [⟨c, (world s c).2⟩] := rfl

/-- A sequence makes the calls of its parts one after the other. -/
theorem trace_bind (s : σ) (p : Prog C R α) (f : α → Prog C R β) :
    trace world s (p >>= f) = trace world s p ++ trace world (run world s p).1 (f (run world s p).2) := by
  induction p generalizing s with
  | ret a => rfl
  | call c k ih => exact congrArg (List.cons _) (ih _ _)

/-- What every call of a kind keeps, a program keeps that makes only such calls. -/
theorem run_keeps {I : σ → Prop} {M : C → Prop} {p : Prog C R α} {s : σ}
    (hkeep : ∀ s c, I s → M c → I (world s c).1) (hkind : ∀ op ∈ trace world s p, M op.1) (hs : I s) :
    I (run world s p).1 := by
  induction p generalizing s with
  | ret a => exact hs
  | call c k ih =>
    exact ih _ (fun op hop => hkind op (List.mem_cons_of_mem _ hop))
      (hkeep s c hs (hkind _ List.mem_cons_self))

/-- The world, with a log of the calls it answered. -/
def recording (world : σ → (c : C) → σ × R c) (s : σ × List (Op C R)) (c : C) : (σ × List (Op C R)) × R c :=
  (((world s.1 c).1, s.2 ++ [⟨c, (world s.1 c).2⟩]), (world s.1 c).2)

/-- Worlds that answer alike run a program alike. -/
theorem run_alike {τ : Type} {world' : τ → (c : C) → τ × R c} {view : τ → σ}
    (halike : ∀ t c, world (view t) c = (view (world' t c).1, (world' t c).2)) (t : τ) (p : Prog C R α) :
    run world (view t) p = (view (run world' t p).1, (run world' t p).2) := by
  induction p generalizing t with
  | ret a => rfl
  | call c k ih =>
    rw [run, halike]
    exact ih _ _

/-- The log does not change what a program does. -/
theorem run_recording (s : σ × List (Op C R)) (p : Prog C R α) :
    run world s.1 p = ((run (recording world) s p).1.1, (run (recording world) s p).2) :=
  run_alike (fun _ _ => rfl) s p

/-- What every call of a world keeps, a program keeps. -/
theorem run_preserves {I : σ → Prop} (hkeep : ∀ s c, I s → I (world s c).1) {s : σ}
    (hs : I s) (p : Prog C R α) :
    I (run world s p).1 :=
  run_keeps (M := fun _ => True) (fun s c hI _ => hkeep s c hI) (fun _ _ => trivial) hs

end Prog

namespace Contract

variable (K : Contract C R G)

/-- Every call of `p` is allowed where it is made, and the result meets `Q`. -/
def Obeys : G → Prog C R α → (G → α → Prop) → Prop
  | g, .ret a, Q => Q g a
  | g, .call c k, Q => K.may g c ∧ ∀ r, K.gives g c r → Obeys (K.next g c r) (k r) Q

/-- The ghost state after some calls. -/
def after : G → List (Op C R) → G
  | g, [] => g
  | g, ⟨c, r⟩ :: ops => after (K.next g c r) ops

/-- Each of these calls is allowed where it was made. -/
def Allows : G → List (Op C R) → Prop
  | _, [] => True
  | g, ⟨c, r⟩ :: ops => K.may g c ∧ Allows (K.next g c r) ops

/-- The world gives the promised answers; `I` ties its state to the ghost state. -/
def KeptBy (world : σ → (c : C) → σ × R c) (I : σ → G → Prop) : Prop :=
  ∀ s g c, I s g → K.may g c → K.gives g c (world s c).2 ∧ I (world s c).1 (K.next g c (world s c).2)

/-- The answers to these calls are the promised ones. -/
def Given : G → List (Op C R) → Prop
  | _, [] => True
  | g, ⟨c, r⟩ :: ops => K.gives g c r ∧ Given (K.next g c r) ops

variable {K} {g : G} {p : Prog C R α} {f : α → Prog C R β} {Q Q' : G → α → Prop} {S : G → β → Prop}

@[simp] theorem obeys_pure {a : α} : K.Obeys g (pure a : Prog C R α) Q ↔ Q g a := Iff.rfl

@[simp] theorem obeys_ask {c : C} {Q : G → R c → Prop} : K.Obeys g (Prog.ask c : Prog C R (R c)) Q ↔
    K.may g c ∧ ∀ r, K.gives g c r → Q (K.next g c r) r := Iff.rfl

theorem obeys_ite {c : Prop} [Decidable c] {q : Prog C R α} (hp : K.Obeys g p Q) (hq : K.Obeys g q Q) :
    K.Obeys g (if c then p else q) Q := by
  split
  · exact hp
  · exact hq

/-- Each branch may use its condition. -/
theorem obeys_ite' {c : Prop} [Decidable c] {q : Prog C R α} (hp : c → K.Obeys g p Q)
    (hq : ¬ c → K.Obeys g q Q) :
    K.Obeys g (if c then p else q) Q := by
  split
  · next h => exact hp h
  · next h => exact hq h

theorem Obeys.mono (h : K.Obeys g p Q) (hle : ∀ g a, Q g a → Q' g a) : K.Obeys g p Q' := by
  induction p generalizing g with
  | ret a => exact hle g a h
  | call c k ih => exact ⟨h.1, fun r hr => ih r (h.2 r hr)⟩

/-- The rule of sequence. -/
theorem Obeys.bind (h : K.Obeys g p fun g a => K.Obeys g (f a) S) : K.Obeys g (p >>= f) S := by
  induction p generalizing g with
  | ret a => exact h
  | call c k ih => exact ⟨h.1, fun r hr => ih r (h.2 r hr)⟩

theorem Obeys.and {Q₁ Q₂ : G → α → Prop} (h₁ : K.Obeys g p Q₁) (h₂ : K.Obeys g p Q₂) :
    K.Obeys g p fun g a => Q₁ g a ∧ Q₂ g a := by
  induction p generalizing g with
  | ret a => exact ⟨h₁, h₂⟩
  | call c k ih => exact ⟨h₁.1, fun r hr => ih r (h₁.2 r hr) (h₂.2 r hr)⟩

/-- What every allowed call keeps holds at the end. -/
theorem Obeys.invariant {I : G → Prop} (h : K.Obeys g p Q) (hI : I g)
    (hkeep : ∀ g c r, I g → K.may g c → K.gives g c r → I (K.next g c r)) :
    K.Obeys g p fun g a => Q g a ∧ I g := by
  induction p generalizing g with
  | ret a => exact ⟨h, hI⟩
  | call c k ih => exact ⟨h.1, fun r hr => ih r (h.2 r hr) (hkeep g c r hI h.1 hr)⟩

theorem allows_append {ops ops' : List (Op C R)} :
    K.Allows g (ops ++ ops') ↔ K.Allows g ops ∧ K.Allows (K.after g ops) ops' := by
  induction ops generalizing g with
  | nil => simp [Allows, after]
  | cons op ops ih => simp only [List.cons_append, Allows, after, ih, and_assoc]

/-- Without a ghost state, the calls are allowed one by one. -/
theorem allows_unit {K : Contract C R Unit} {ops : List (Op C R)} :
    K.Allows () ops ↔ ∀ op ∈ ops, K.may () op.1 := by
  induction ops with
  | nil => simp [Allows]
  | cons op ops ih => simp only [Allows, ih, List.forall_mem_cons]

theorem after_append (g : G) (ops ops' : List (Op C R)) :
    K.after g (ops ++ ops') = K.after (K.after g ops) ops' := by
  induction ops generalizing g with
  | nil => rfl
  | cons op ops ih => exact ih _

/-- The promise at each call is the one after those before it. -/
theorem given_iff {ops : List (Op C R)} :
    K.Given g ops ↔ ∀ pre op post, ops = pre ++ op :: post → K.gives (K.after g pre) op.1 op.2 := by
  induction ops generalizing g with
  | nil =>
    refine ⟨fun _ pre op post h => ?_, fun _ => trivial⟩
    cases pre <;> cases h
  | cons op ops ih =>
    refine ⟨fun h pre x post hsplit => ?_, fun h => ⟨h [] op ops rfl, ih.mpr fun pre x post hsplit => ?_⟩⟩
    · cases pre with
      | nil =>
        cases hsplit
        exact h.1
      | cons y pre =>
        cases hsplit
        exact ih.mp h.2 pre x post rfl
    · exact h (op :: pre) x post (by rw [hsplit]; rfl)

/-- What holds of the ghost state has come about at some call, and nothing since has taken it back. -/
theorem since (holds : G → Prop) (event : G → Op C R → Prop) (clears : Op C R → Prop)
    (hstart : ¬ holds g) (ops : List (Op C R))
    (hstep : ∀ pre op post, ops = pre ++ op :: post → holds (K.next (K.after g pre) op.1 op.2) →
      (holds (K.after g pre) ∨ event (K.after g pre) op) ∧ ¬ clears op)
    (h : holds (K.after g ops)) :
    ∃ front op rest, ops = front ++ op :: rest ∧ event (K.after g front) op ∧
      ∀ x ∈ op :: rest, ¬ clears x := by
  induction ops using List.reverseRecOn with
  | nil => exact absurd h hstart
  | append_singleton ops op ih =>
    rw [after_append] at h
    obtain ⟨hbefore | hnow, hkept⟩ := hstep ops op [] rfl h
    · have hstep' := fun pre x post (hsplit : ops = pre ++ x :: post) =>
        hstep pre x (post ++ [op]) (by rw [hsplit]; simp)
      obtain ⟨front, x, rest, rfl, hevent, hrest⟩ := ih hstep' hbefore
      refine ⟨front, x, rest ++ [op], by simp, hevent, fun y hy => ?_⟩
      rw [← List.cons_append, List.mem_append, List.mem_singleton] at hy
      rcases hy with hy | rfl
      · exact hrest y hy
      · exact hkept
    · refine ⟨ops, op, [], rfl, hnow, fun y hy => ?_⟩
      rw [List.mem_singleton] at hy
      subst hy
      exact hkept

/-- Each call is allowed after those before it. -/
theorem Allows.at {pre post : List (Op C R)} {op : Op C R} (h : K.Allows g (pre ++ op :: post)) :
    K.may (K.after g pre) op.1 := (allows_append.mp h).2.1

/-- In a run with the promised answers, an obedient program makes only allowed calls and ends in `Q`. -/
theorem Obeys.allows {world : σ → (c : C) → σ × R c} {s : σ} (h : K.Obeys g p Q)
    (hgiven : K.Given g (p.trace world s)) :
    K.Allows g (p.trace world s) ∧ Q (K.after g (p.trace world s)) (p.run world s).2 := by
  induction p generalizing s g with
  | ret a => exact ⟨trivial, h⟩
  | call c k ih =>
    obtain ⟨hallow, hq⟩ := ih _ (h.2 _ hgiven.1) hgiven.2
    exact ⟨⟨h.1, hallow⟩, hq⟩

/-- For the first calls of a run only the answers to those need be the promised ones. -/
theorem Obeys.allows_front {world : σ → (c : C) → σ × R c} {s : σ} {ops : List (Op C R)} (h : K.Obeys g p Q)
    (hops : ops <+: p.trace world s) (hgiven : K.Given g ops) : K.Allows g ops := by
  induction p generalizing s g ops with
  | ret a =>
    obtain rfl := List.prefix_nil.mp hops
    trivial
  | call c k ih =>
    cases ops with
    | nil => trivial
    | cons op ops =>
      obtain ⟨rfl, hrest⟩ := List.cons_prefix_cons.mp hops
      exact ⟨h.1, ih _ (h.2 _ hgiven.1) hrest hgiven.2⟩

/-- In a world that keeps the contract, an obedient program makes only allowed calls and ends in `Q`. -/
theorem Obeys.sound {world : σ → (c : C) → σ × R c} {I : σ → G → Prop} {s : σ} (h : K.Obeys g p Q)
    (hkept : K.KeptBy world I) (hI : I s g) :
    K.Allows g (p.trace world s) ∧ Q (K.after g (p.trace world s)) (p.run world s).2 ∧
      I (p.run world s).1 (K.after g (p.trace world s)) := by
  induction p generalizing s g with
  | ret a => exact ⟨trivial, h, hI⟩
  | call c k ih =>
    obtain ⟨hgives, hnext⟩ := hkept s g c hI h.1
    obtain ⟨hallow, hq, hend⟩ := ih _ (h.2 _ hgives) hnext
    exact ⟨⟨h.1, hallow⟩, hq, hend⟩

end Contract

end Schemes
