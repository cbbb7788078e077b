import FdcSds.Schemes.Bytes
import FdcSds.Schemes.Programs

/-! Programs with checked accesses.

    A program loads from buffers it was given and stores into one of its own. An access outside a buffer
    ends it with `none`. Each operation has one rule: within bounds, the program goes on.

        load buf i ──i < buf.length──▶ buf[i]        store i v ──i < out.length──▶ out with v at i
                   └──────▶ none                               └──────▶ none                    -/

namespace Schemes

/-- A program over calls that may load and store; its own buffer goes along. -/
def Access (C : Type) (R : C → Type) (α : Type) : Type := Bytes → Prog C R (Option (α × Bytes))

/-- Sequences may be bracketed either way. -/
theorem Prog.bind_assoc {C : Type} {R : C → Type} {α β γ : Type} (p : Prog C R α) (f : α → Prog C R β)
    (g : β → Prog C R γ) :
    p >>= f >>= g = p >>= fun a => f a >>= g := by
  induction p with
  | ret a => rfl
  | call c k ih => exact congrArg (Prog.call c) (funext fun r => ih r)

/-- What the first part ensures may be used in the second one. -/
theorem Prog.Ensures.bind_congr {C : Type} {R : C → Type} {α β : Type} {p : Prog C R α} {P : α → Prop}
    {f g : α → Prog C R β} (h : p.Ensures P) (hfg : ∀ a, P a → f a = g a) : p >>= f = p >>= g := by
  induction p with
  | ret a => exact hfg a h
  | call c k ih => exact congrArg (Prog.call c) (funext fun r => ih r (h r))

namespace Access

variable {C : Type} {R : C → Type} {α β σ : Type}

def bind (m : Access C R α) (f : α → Access C R β) : Access C R β := fun out =>
  m out >>= fun
    | none => pure none
    | some (a, out) => f a out

instance : Monad (Access C R) where
  pure a := fun out => pure (some (a, out))
  bind := bind

/-- A program without accesses. -/
def lift (p : Prog C R α) : Access C R α := fun out => p >>= fun a => pure (some (a, out))

/-- Go on when `p` holds. -/
def check (p : Prop) [Decidable p] : Access C R Unit := fun out => pure (if p then some ((), out) else none)

def load (buf : Bytes) (i : ℕ) : Access C R UInt8 := do
  check (i < buf.length)
  pure (buf.getD i 0)

def loadWord (buf : Bytes) (i : ℕ) : Access C R ℕ := do
  check (i + 2 ≤ buf.length)
  pure (word buf i)

def loadDword (buf : Bytes) (i : ℕ) : Access C R ℕ := do
  check (i + 4 ≤ buf.length)
  pure (dword buf i)

def loadBytes (buf : Bytes) (off len : ℕ) : Access C R Bytes := do
  check (off + len ≤ buf.length)
  pure (slice buf off len)

/-- The bytes in front of the first NUL. -/
def stringIn (c : Bytes) : Bytes := c.takeWhile (· ≠ 0)

/-- Look for a NUL in `len` bytes at `off`, up to the first: where it stands. -/
def memchr (buf : Bytes) (off len : ℕ) : Access C R (Option ℕ) :=
  if 0 ∈ slice buf off len then pure (some (off + (stringIn (slice buf off len)).length))
  else do
    check (off + len ≤ buf.length)
    pure none

/-- The string at `off`, up to its NUL. -/
def loadString (buf : Bytes) (off : ℕ) : Access C R Bytes := do
  check (0 ∈ buf.drop off)
  pure (stringIn (buf.drop off))

/-- The first `n` bytes of the buffer of its own. -/
def loadFront (n : ℕ) : Access C R Bytes :=
  fun out => pure (if n ≤ out.length then some (out.take n, out) else none)

def storeBytes (i : ℕ) (bytes : Bytes) : Access C R Unit := fun out =>
  pure (if i + bytes.length ≤ out.length then some ((), patch out i bytes) else none)

def store (i : ℕ) (v : UInt8) : Access C R Unit := storeBytes i [v]

/-- So many bytes at `i` may be stored. -/
def reserve (i len : ℕ) : Access C R Unit :=
  fun out => pure (if i + len ≤ out.length then some ((), out) else none)

/-! ### Rules -/

variable {buf out bytes : Bytes} {i n off len : ℕ} {a : α} {m : Access C R α} {f : α → Access C R β}

theorem pure_bind (a : α) (f : α → Access C R β) : (pure a >>= f : Access C R β) = f a := rfl

theorem bind_assoc {γ : Type} (m : Access C R α) (f : α → Access C R β) (g : β → Access C R γ) :
    (m >>= f >>= g : Access C R γ) = m >>= fun a => f a >>= g := by
  refine funext fun out => (Prog.bind_assoc _ _ _).trans ?_
  refine congrArg (m out >>= ·) (funext fun r => ?_)
  cases r <;> rfl

/-- The first part goes on. -/
theorem bind_of_some {out' : Bytes} (h : m out = pure (some (a, out'))) (f : α → Access C R β) :
    (m >>= f) out = f a out' := by
  change m out >>= _ = _
  rw [h]
  rfl

/-- The first part has ended the program. -/
theorem bind_of_none (h : m out = pure none) (f : α → Access C R β) : (m >>= f) out = pure none := by
  change m out >>= _ = _
  rw [h]
  rfl

theorem check_bind {p : Prop} [Decidable p] (h : p) (f : Unit → Access C R β) : (check p >>= f) = f () := by
  refine funext fun out => bind_of_some ?_ f
  rw [check, if_pos h]

theorem load_bind (h : i < buf.length) (f : UInt8 → Access C R β) :
    (load buf i >>= f) = f (buf.getD i 0) := by
  rw [load, bind_assoc, check_bind h, pure_bind]

theorem loadWord_bind (h : i + 2 ≤ buf.length) (f : ℕ → Access C R β) :
    (loadWord buf i >>= f) = f (word buf i) := by
  rw [loadWord, bind_assoc, check_bind h, pure_bind]

theorem loadDword_bind (h : i + 4 ≤ buf.length) (f : ℕ → Access C R β) :
    (loadDword buf i >>= f) = f (dword buf i) := by
  rw [loadDword, bind_assoc, check_bind h, pure_bind]

theorem loadBytes_bind (h : off + len ≤ buf.length) (f : Bytes → Access C R β) :
    (loadBytes buf off len >>= f) = f (slice buf off len) := by
  rw [loadBytes, bind_assoc, check_bind h, pure_bind]

theorem loadString_bind (h : 0 ∈ buf.drop off) (f : Bytes → Access C R β) :
    (loadString buf off >>= f) = f (stringIn (buf.drop off)) := by
  rw [loadString, bind_assoc, check_bind h, pure_bind]

theorem slice_rest (hrest : off + len = buf.length) : slice buf off len = buf.drop off := by
  refine List.take_of_length_le (Nat.le_of_eq ?_)
  rw [List.length_drop]
  omega

/-- The NUL is found in the rest of the buffer. -/
theorem memchr_found (hrest : off + len = buf.length) (h : 0 ∈ buf.drop off) (f : Option ℕ → Access C R β) :
    (memchr buf off len >>= f) = f (some (off + (stringIn (buf.drop off)).length)) := by
  rw [memchr, slice_rest hrest, if_pos h, pure_bind]

/-- There is no NUL in the rest of the buffer. -/
theorem memchr_missed (hrest : off + len = buf.length) (h : 0 ∉ buf.drop off) (f : Option ℕ → Access C R β) :
    (memchr buf off len >>= f) = f none := by
  rw [memchr, slice_rest hrest, if_neg h, bind_assoc, check_bind (Nat.le_of_eq hrest), pure_bind]

theorem lift_bind_apply (p : Prog C R α) (f : α → Access C R β) (out : Bytes) :
    (lift p >>= f) out = p >>= fun a => f a out :=
  Prog.bind_assoc p _ _

/-- The first part is a program without accesses, then some stores. -/
theorem bind_apply_of_eq {γ : Type} {p : Prog C R γ} {g : γ → α × Bytes}
    (h : m out = p >>= fun c => pure (some (g c))) (f : α → Access C R β) :
    (m >>= f) out = p >>= fun c => f (g c).1 (g c).2 := by
  change m out >>= _ = _
  rw [h, Prog.bind_assoc]
  rfl

theorem storeBytes_bind_apply (h : i + bytes.length ≤ out.length) (f : Unit → Access C R β) :
    (storeBytes i bytes >>= f) out = f () (patch out i bytes) :=
  bind_of_some (by rw [storeBytes, if_pos h]) f

theorem reserve_bind_apply (h : i + len ≤ out.length) (f : Unit → Access C R β) :
    (reserve i len >>= f) out = f () out :=
  bind_of_some (by rw [reserve, if_pos h]) f

theorem loadFront_bind_apply (h : n ≤ out.length) (f : Bytes → Access C R β) :
    (loadFront n >>= f) out = f (out.take n) out :=
  bind_of_some (by rw [loadFront, if_pos h]) f

/-- Storing outside ends the program. -/
theorem storeBytes_fault (h : ¬i + bytes.length ≤ out.length) (f : Unit → Access C R β) :
    (storeBytes i bytes >>= f) out = pure none :=
  bind_of_none (by rw [storeBytes, if_neg h]) f

/-! ### Stores side by side -/

variable {first second : Bytes}

theorem patch_behind (h : i + first.length ≤ out.length) :
    patch (patch out i first) (i + first.length) second = patch out i (first ++ second) := by
  have hfront : (out.take i ++ first).length = i + first.length := by
    rw [List.length_append, List.length_take, Nat.min_eq_left (by omega)]
  have htake : (patch out i first).take (i + first.length) = out.take i ++ first := by
    rw [patch, ← hfront, List.take_left]
  have hdrop : (patch out i first).drop (i + first.length + second.length) =
    out.drop (i + (first ++ second).length) := by
    rw [patch, ← hfront, ← List.drop_drop, List.drop_left, List.drop_drop, hfront,
      List.length_append, Nat.add_assoc]
  rw [patch, htake, hdrop, List.append_assoc, List.append_assoc, patch, List.append_assoc, List.append_assoc]

theorem patch_before (h : i + first.length ≤ out.length) :
    patch (patch out (i + first.length) second) i first = patch out i (first ++ second) := by
  have hfront : (out.take (i + first.length)).length = i + first.length := by
    rw [List.length_take, Nat.min_eq_left h]
  have htake : (patch out (i + first.length) second).take i = out.take i := by
    rw [patch, List.append_assoc, List.take_append_of_le_length (by omega), List.take_take,
      Nat.min_eq_left (by omega)]
  have hdrop : (patch out (i + first.length) second).drop (i + first.length) = second ++
    out.drop (i + (first ++ second).length) := by
    rw [patch, List.append_assoc, List.drop_append_of_le_length (by omega),
      List.drop_of_length_le (by omega), List.nil_append,
      List.length_append, Nat.add_assoc]
  rw [patch, htake, hdrop, patch, ← List.append_assoc, ← List.append_assoc]

/-- One store behind another is one store. -/
theorem storeBytes_behind {j : ℕ} (hj : j = i + first.length) (f : Unit → Access C R β) :
    (storeBytes i first >>= fun _ => storeBytes j second >>= f) = (storeBytes i (first ++ second) >>= f) := by
  subst hj
  funext out
  by_cases hfirst : i + first.length ≤ out.length
  · rw [storeBytes_bind_apply hfirst]
    have hlen := length_patch hfirst
    by_cases hboth : i + (first ++ second).length ≤ out.length
    · rw [storeBytes_bind_apply hboth, storeBytes_bind_apply, patch_behind hfirst]
      rw [hlen, Nat.add_assoc, ← List.length_append]
      exact hboth
    · rw [storeBytes_fault hboth, storeBytes_fault]
      rw [hlen, Nat.add_assoc, ← List.length_append]
      exact hboth
  · rw [storeBytes_fault hfirst, storeBytes_fault]
    rw [List.length_append]
    omega

/-- And one in front of another. -/
theorem storeBytes_before {j : ℕ} (hj : j = i + first.length) (f : Unit → Access C R β) :
    (storeBytes j second >>= fun _ => storeBytes i first >>= f) = (storeBytes i (first ++ second) >>= f) := by
  subst hj
  funext out
  by_cases hboth : i + first.length + second.length ≤ out.length
  · rw [storeBytes_bind_apply hboth, storeBytes_bind_apply, storeBytes_bind_apply, patch_before (by omega)]
    · rwa [List.length_append, ← Nat.add_assoc]
    · rw [length_patch hboth]
      omega
  · rw [storeBytes_fault hboth, storeBytes_fault]
    rwa [List.length_append, ← Nat.add_assoc]

/-! ### Local buffers -/

/-- With a buffer for itself, which is gone afterwards. -/
def withBuffer (buf : Bytes) (m : Access C R α) : Access C R α := fun out => m buf >>= fun
  | none => pure none
  | some (a, _) => pure (some (a, out))

/-- A result and some bytes, put to the front of the buffer; `none` when they do not fit. -/
def settle (out : Bytes) (r : σ × Bytes) : Prog C R (Option ((σ × ℕ) × Bytes)) :=
  pure (if r.2.length ≤ out.length then some ((r.1, r.2.length), memcpy out r.2) else none)

theorem patch_zero (out bytes : Bytes) : patch out 0 bytes = memcpy out bytes := by
  rw [patch, List.take_zero, List.nil_append, Nat.zero_add, memcpy]

/-- One store to the front. -/
theorem storeBytes_settle (s : σ) (bytes out : Bytes) :
    (storeBytes 0 bytes >>= fun _ => pure (s, bytes.length) : Access C R (σ × ℕ)) out =
      settle out (s, bytes) := by
  by_cases hfits : bytes.length ≤ out.length
  · rw [storeBytes_bind_apply (by omega), patch_zero, settle, if_pos hfits]
    rfl
  · rw [storeBytes_fault (by omega), settle, if_neg hfits]

/-! ### Within bounds -/

section Run

variable {world : σ → (c : C) → σ × R c} {card : σ} {p : Prog C R α} {q : α → Prog C R β}

/-- In this world, `m` does what `p` does: no access is outside. -/
def Plays (world : σ → (c : C) → σ × R c) (card : σ) (m : Access C R α) (p : Prog C R α) : Prop :=
  ∀ out, Prog.run world card (m out) = ((Prog.run world card p).1, some ((Prog.run world card p).2, out))

theorem plays_pure (a : α) : Plays world card (pure a) (pure a) := fun _ => rfl

/-- The first part goes on, in this world. -/
theorem run_bind_apply {out out' : Bytes} {card' : σ}
    (h : Prog.run world card (m out) = (card', some (a, out'))) (f : α → Access C R β) :
    Prog.run world card ((m >>= f) out) = Prog.run world card' (f a out') := by
  have hbind : (m >>= f) out = m out >>= fun
    | none => pure none
    | some (a, out) => f a out := rfl
  rw [hbind, Prog.run_bind, h]

theorem Plays.bind (hm : Plays world card m p)
    (hf : Plays world (Prog.run world card p).1 (f (Prog.run world card p).2) (q (Prog.run world card p).2)) :
    Plays world card (m >>= f) (p >>= q) := by
  intro out
  rw [run_bind_apply (hm out), Prog.run_bind]
  exact hf out

/-- The first part only gives a value. -/
theorem Plays.bind_pure {q : Prog C R β} (hm : Plays world card m (pure a)) (hf : Plays world card (f a) q) :
    Plays world card (m >>= f) q :=
  fun out => (run_bind_apply (hm out) f).trans (hf out)

theorem plays_lift (p : Prog C R α) : Plays world card (lift p) p := by
  intro out
  rw [lift, Prog.run_bind]
  rfl

theorem plays_withBuffer {buf : Bytes} (buf' : Bytes)
    (h : Prog.run world card (m buf) = ((Prog.run world card p).1, some ((Prog.run world card p).2, buf'))) :
    Plays world card (withBuffer buf m) p := by
  intro out
  rw [withBuffer, Prog.run_bind, h]
  rfl

end Run

end Access

end Schemes
