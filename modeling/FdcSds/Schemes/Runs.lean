import Mathlib.Logic.Relation
import Mathlib.Tactic.Common

/-! Guarded machines and their runs.

    A machine is an executable step function `step : σ → α → Option σ`: an action that is not enabled
    in a state gives `none`. One definition serves replay (`exec` evaluates a list of actions) and
    proof (`Path` / `Reach` quantify over every run). A *step condition* `ok : σ → α → Prop` restricts
    the runs to those whose every step meets it, so that "in every run whose steps all meet the
    condition" is one predicate; `fun _ _ => True` leaves every run in.

        start s₀ ──ok, step──▶ s₁ ──ok, step──▶ s₂ ──▶ …        Reach ok sₙ -/

namespace Schemes.Runs

/-- A guarded machine over states `σ` and actions `α`. -/
structure Machine (σ α : Type) where
  start : σ → Prop
  step : σ → α → Option σ

/-- A guarded update: enabled when `p` holds. -/
def when {σ : Type} (p : Prop) [Decidable p] (s : σ) : Option σ := if p then some s else none

@[simp] theorem when_eq_some {σ : Type} {p : Prop} [Decidable p] {s s' : σ} :
    when p s = some s' ↔ p ∧ s = s' := by
  simp [when]

namespace Machine

variable {σ α : Type} (m : Machine σ α)

/-- Replay a list of actions; `none` as soon as one of them is not enabled. -/
def exec : σ → List α → Option σ
  | s, [] => some s
  | s, a :: as => (m.step s a).bind fun s' => exec s' as

/-- Every step of the replay meets `ok`. -/
def execOk (ok : σ → α → Bool) : σ → List α → Bool
  | _, [] => true
  | s, a :: as => ok s a && (match m.step s a with | some s' => execOk ok s' as | none => true)

/-- One enabled step that meets the step condition. -/
def Move (ok : σ → α → Prop) (s s' : σ) : Prop := ∃ a, ok s a ∧ m.step s a = some s'

/-- A finite run segment whose steps all meet the step condition. -/
def Path (ok : σ → α → Prop) : σ → σ → Prop := Relation.ReflTransGen (m.Move ok)

/-- States reached from a start state by such a segment. -/
def Reach (ok : σ → α → Prop) (s : σ) : Prop := ∃ s₀, m.start s₀ ∧ m.Path ok s₀ s

/-- The step condition that leaves every run in. -/
abbrev always : σ → α → Prop := fun _ _ => True

variable {m} {ok : σ → α → Prop} {s s' : σ}

/-- What one step preserves, a run segment preserves. -/
theorem Path.invariant {I : σ → Prop} (hstep : ∀ s a s', I s → ok s a → m.step s a = some s' → I s')
    (h : m.Path ok s s') (hs : I s) : I s' := by
  induction h with
  | refl => exact hs
  | tail _ hmove ih =>
    obtain ⟨a, hok, hstep'⟩ := hmove
    exact hstep _ a _ ih hok hstep'

/-- The invariant rule: it holds at the start, one step preserves it, so it holds wherever a run
    whose steps meet the condition can get. -/
theorem Reach.invariant {I : σ → Prop} (hstart : ∀ s, m.start s → I s)
    (hstep : ∀ s a s', I s → ok s a → m.step s a = some s' → I s') (h : m.Reach ok s) : I s := by
  obtain ⟨s₀, hs₀, hpath⟩ := h
  exact hpath.invariant hstep (hstart s₀ hs₀)

theorem Reach.of_start (hs : m.start s) : m.Reach ok s := ⟨s, hs, .refl⟩

theorem Reach.step {a : α} (h : m.Reach ok s) (hok : ok s a) (hs : m.step s a = some s') :
    m.Reach ok s' := by
  obtain ⟨s₀, hs₀, hpath⟩ := h
  exact ⟨s₀, hs₀, hpath.tail ⟨a, hok, hs⟩⟩

theorem Reach.path (h : m.Reach ok s) (hp : m.Path ok s s') : m.Reach ok s' := by
  obtain ⟨s₀, hs₀, hpath⟩ := h
  exact ⟨s₀, hs₀, hpath.trans hp⟩

/-- A weaker step condition reaches at least as much. -/
theorem Reach.mono {ok' : σ → α → Prop} (hle : ∀ s a, ok s a → ok' s a) (h : m.Reach ok s) :
    m.Reach ok' s := by
  obtain ⟨s₀, hs₀, hpath⟩ := h
  refine ⟨s₀, hs₀, Relation.ReflTransGen.mono ?_ _ _ hpath⟩
  rintro a b ⟨x, hx, hs⟩
  exact ⟨x, hle a x hx, hs⟩

/-- A replay whose steps pass the Boolean check is a run segment that meets the condition. -/
theorem exec_path (okb : σ → α → Bool) (hok : ∀ s a, okb s a = true → ok s a) :
    ∀ {as : List α} {s s' : σ}, m.exec s as = some s' → m.execOk okb s as = true → m.Path ok s s'
  | [], s, s', h, _ => by
    simp only [exec, Option.some.injEq] at h
    subst h
    exact .refl
  | a :: as, s, s', h, hk => by
    simp only [exec, Option.bind_eq_some_iff] at h
    obtain ⟨s₁, hs₁, hrest⟩ := h
    simp only [execOk, Bool.and_eq_true, hs₁] at hk
    exact .head ⟨a, hok _ _ hk.1, hs₁⟩ (exec_path okb hok hrest hk.2)

/-- The machine with a note carried along, which every step may rewrite and none looks at. -/
def annotate {γ : Type} (m : Machine σ α) (note : σ → α → γ → γ) : Machine (σ × γ) α where
  start x := m.start x.1
  step x a := (m.step x.1 a).map fun s => (s, note x.1 a x.2)

/-- Without the note it is a run of the machine itself. -/
theorem Reach.forget {γ : Type} {note : σ → α → γ → γ} {ok : σ × γ → α → Prop} {x : σ × γ}
    (h : (m.annotate note).Reach ok x) : m.Reach always x.1 := by
  refine h.invariant (I := fun x => m.Reach always x.1) (fun x hx => .of_start hx) fun x a x' hx _ hstep => ?_
  obtain ⟨s, hs, rfl⟩ := Option.map_eq_some_iff.mp hstep
  exact hx.step trivial hs

/-- A replay is a run segment of the unrestricted machine. -/
theorem exec_always {as : List α} (h : m.exec s as = some s') : m.Path always s s' := by
  refine exec_path (fun _ _ => true) (fun _ _ _ => trivial) h ?_
  clear h
  induction as generalizing s with
  | nil => rfl
  | cons a as ih =>
    simp only [execOk, Bool.true_and]
    cases m.step s a with
    | none => rfl
    | some s₁ => exact ih

end Machine

end Schemes.Runs
