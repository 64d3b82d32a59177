/-
# Reading a buffer from front to back

A `Scan` moves a cursor over a buffer it does not change and returns a value or an
error.  Scans compose with `do`; `bind_eq_ok` takes a composition that returned
apart, and the rules of `Gives` and `Takes` do it along the reader: `Gives` for what is
returned, `Takes` for what was read with it.  `Moves` is what every scan built from `take` does to its cursor: the buffer
stays, the position does not go back and does not leave the buffer.

A loop over a buffer is `untilEmpty`, bounded by a number of rounds.  `untilEmpty_eq`
says when the bound is not felt: if every round takes a symbol, as many rounds as
there are symbols left make it the unbounded loop.

`Reads` goes the other way: the symbols written for a value are read back as it,
whatever follows them.  Its rules follow the combinators, so that the round trip of a
format is proved along its reader.
-/

import Mathlib.Order.Basic

namespace Lib

open List

/-- A position in a buffer. -/
structure Cursor (β : Type) where
  /-- The buffer. -/
  buf : List β
  /-- How much of it has been read. -/
  pos : ℕ
  deriving DecidableEq

namespace Cursor

variable {β : Type}

/-- The start of a buffer. -/
def new (buf : List β) : Cursor β := { buf := buf, pos := 0 }

/-- What is left to read. -/
def remaining (c : Cursor β) : List β := c.buf.drop c.pos

/-- Nothing is left. -/
def isEmpty (c : Cursor β) : Bool := decide (c.buf.length ≤ c.pos)

theorem isEmpty_iff {c : Cursor β} : c.isEmpty = true ↔ c.buf.length ≤ c.pos := decide_eq_true_iff

end Cursor

/-- A read with errors `ε` over symbols `β`. -/
structure Scan (ε β α : Type) where
  /-- The value read and the cursor after it. -/
  run : Cursor β → Except ε (α × Cursor β)

namespace Scan

variable {ε ε' β α γ σ : Type}

/-- Read one thing after the other. -/
def andThen (x : Scan ε β α) (f : α → Scan ε β γ) : Scan ε β γ := ⟨fun c =>
  match x.run c with
  | .ok (a, d) => (f a).run d
  | .error e => .error e⟩

instance : Monad (Scan ε β) where
  pure a := ⟨fun c => .ok (a, c)⟩
  bind := andThen

/-- Give up. -/
def fail (e : ε) : Scan ε β α := ⟨fun _ => .error e⟩

/-- Look at the cursor. -/
def cursor : Scan ε β (Cursor β) := ⟨fun c => .ok (c, c)⟩

/-- Go on only if `p`. -/
def require (e : ε) (p : Prop) [Decidable p] : Scan ε β Unit := if p then pure () else fail e

/-- A computation that reads nothing. -/
def lift (r : Except ε α) : Scan ε β α := ⟨fun c => r.map fun a => (a, c)⟩

/-- The next `n` symbols; `short` if there are fewer. -/
def take (short : ε) (n : ℕ) : Scan ε β (List β) := ⟨fun c =>
  if c.pos + n ≤ c.buf.length then .ok ((c.buf.drop c.pos).take n, { c with pos := c.pos + n })
  else .error short⟩

/-- Read with other errors. -/
def mapError (g : ε → ε') (x : Scan ε β α) : Scan ε' β α := ⟨fun c => (x.run c).mapError g⟩

/-- Read `n` times, handing a state on. -/
def times (body : σ → Scan ε β σ) : ℕ → σ → Scan ε β σ
  | 0, s => pure s
  | n + 1, s => body s >>= times body n

/-- Read until the buffer is empty, at most `fuel` times. -/
def untilEmpty (body : σ → Scan ε β σ) : ℕ → σ → Scan ε β σ
  | 0, s => pure s
  | fuel + 1, s => do
      if (← cursor).isEmpty then return s
      body s >>= untilEmpty body fuel

@[simp] theorem run_pure (a : α) (c : Cursor β) : (pure a : Scan ε β α).run c = .ok (a, c) := rfl

@[simp] theorem cursor_bind (f : Cursor β → Scan ε β γ) (c : Cursor β) : (cursor >>= f).run c = (f c).run c := rfl

theorem run_bind (x : Scan ε β α) (f : α → Scan ε β γ) (c : Cursor β) : (x >>= f).run c = match x.run c with
      | .ok (a, d) => (f a).run d
      | .error e => .error e := rfl

variable {x : Scan ε β α} {f : α → Scan ε β γ} {c d : Cursor β}

/-- A composition that returned: its first part returned, and so did the rest. -/
theorem bind_eq_ok {b : γ} (h : (x >>= f).run c = .ok (b, d)) :
    ∃ a u, x.run c = .ok (a, u) ∧ (f a).run u = .ok (b, d) := by
  rw [run_bind] at h
  cases hx : x.run c with
  | error e =>
    rw [hx] at h
    cases h
  | ok r =>
    rw [hx] at h
    exact ⟨r.1, r.2, rfl, h⟩

theorem mapError_eq_ok {g : ε → ε'} {a : α} (h : (x.mapError g).run c = .ok (a, d)) : x.run c = .ok (a, d) := by
  cases hx : x.run c with
  | error e =>
    simp only [mapError, hx] at h
    cases h
  | ok r =>
    simp only [mapError, hx] at h
    cases h
    rfl

theorem lift_eq_ok {r : Except ε α} {a : α} (h : (lift r : Scan ε β α).run c = .ok (a, d)) : r = .ok a ∧ d = c := by
  cases r with
  | error e => cases h
  | ok b =>
    cases h
    exact ⟨rfl, rfl⟩

theorem take_eq_ok {short : ε} {n : ℕ} {l : List β} (h : (take short n).run c = .ok (l, d)) :
    c.pos + n ≤ c.buf.length ∧ l = (c.buf.drop c.pos).take n ∧ d = { c with pos := c.pos + n } := by
  simp only [take] at h
  split_ifs at h with hn
  cases h
  exact ⟨hn, rfl, rfl⟩

/-- What was taken stands before what is left. -/
theorem remaining_of_take {short : ε} {n : ℕ} {l : List β} (h : (take short n).run c = .ok (l, d)) :
    c.remaining = l ++ d.remaining ∧ l.length = n := by
  obtain ⟨hn, rfl, rfl⟩ := take_eq_ok h
  refine ⟨?_, ?_⟩
  · rw [Cursor.remaining, Cursor.remaining, ← drop_drop, take_append_drop]
  · rw [length_take, length_drop]
    omega

/-- A read that returns has moved the cursor forwards over at least `n` symbols. -/
def Moves (n : ℕ) (x : Scan ε β α) : Prop := ∀ c a d, x.run c = .ok (a, d) → d.buf = c.buf ∧ c.pos + n ≤ d.pos

namespace Moves

variable {m n : ℕ}

theorem mono (h : Moves n x) (hmn : m ≤ n) : Moves m x := by
  intro c a d hx
  obtain ⟨hbuf, hpos⟩ := h c a d hx
  exact ⟨hbuf, by omega⟩

theorem pure (a : α) : Moves 0 (Pure.pure a : Scan ε β α) := by
  intro c b d h
  cases h
  exact ⟨rfl, Nat.le_refl _⟩

theorem fail (e : ε) : Moves n (fail e : Scan ε β α) := by
  intro c a d h
  cases h

theorem cursor : Moves 0 (cursor : Scan ε β (Cursor β)) := by
  intro c a d h
  cases h
  exact ⟨rfl, Nat.le_refl _⟩

theorem lift (r : Except ε α) : Moves 0 (lift r : Scan ε β α) := by
  intro c a d h
  obtain ⟨-, rfl⟩ := lift_eq_ok h
  exact ⟨rfl, Nat.le_refl _⟩

theorem take (short : ε) (n : ℕ) : Moves n (take short n : Scan ε β (List β)) := by
  intro c a d h
  obtain ⟨-, -, rfl⟩ := take_eq_ok h
  exact ⟨rfl, Nat.le_refl _⟩

theorem mapError {g : ε → ε'} (h : Moves n x) : Moves n (x.mapError g) :=
  fun c a d hx => h c a d (mapError_eq_ok hx)

theorem bind (hx : Moves m x) (hf : ∀ a, Moves n (f a)) : Moves (m + n) (x >>= f) := by
  intro c b e h
  obtain ⟨a, d, hxd, hfe⟩ := bind_eq_ok h
  obtain ⟨hbuf, hpos⟩ := hx c a d hxd
  obtain ⟨hbuf', hpos'⟩ := hf a d b e hfe
  exact ⟨hbuf'.trans hbuf, by omega⟩

/-- The same without the counts. -/
theorem andThen (hx : Moves m x) (hf : ∀ a, Moves 0 (f a)) : Moves 0 (x >>= f) :=
  (hx.bind hf).mono (Nat.zero_le _)

theorem ite {p : Prop} [Decidable p] {y : Scan ε β α} (hx : Moves n x) (hy : Moves n y) :
    Moves n (if p then x else y) := by
  split
  · exact hx
  · exact hy

theorem times {body : σ → Scan ε β σ} (h : ∀ s, Moves 0 (body s)) (k : ℕ) (s : σ) : Moves 0 (times body k s) := by
  induction k generalizing s with
  | zero => exact Moves.pure s
  | succ k ih => exact (h s).bind ih

end Moves

theorem untilEmpty_succ (body : σ → Scan ε β σ) (fuel : ℕ) (s : σ) (c : Cursor β) :
    (untilEmpty body (fuel + 1) s).run c =
      if c.isEmpty then .ok (s, c) else (body s >>= untilEmpty body fuel).run c := by
  rw [untilEmpty, cursor_bind]
  split_ifs <;> rfl

/-- **The loop is unbounded.**  If every round reads a symbol, a bound of what is left
is never reached, and the loop is its own unrolling. -/
theorem untilEmpty_eq {body : σ → Scan ε β σ} (h : ∀ s, Moves 1 (body s)) (fuel : ℕ) (s : σ)
    (c : Cursor β) (hfuel : c.buf.length ≤ c.pos + fuel) :
    (untilEmpty body fuel s).run c = if c.isEmpty then .ok (s, c) else (body s >>= untilEmpty body fuel).run c := by
  induction fuel generalizing s c with
  | zero =>
    have hempty : c.isEmpty = true := Cursor.isEmpty_iff.2 hfuel
    rw [if_pos hempty]
    rfl
  | succ fuel ih =>
    rw [untilEmpty_succ]
    split_ifs with hempty
    · rfl
    · rw [run_bind, run_bind]
      cases hb : (body s).run c with
      | error e => rfl
      | ok r =>
        obtain ⟨hbuf, hpos⟩ := h s c r.1 r.2 hb
        have hleft : r.2.buf.length ≤ r.2.pos + fuel := by
          rw [hbuf]
          omega
        simp only [ih r.1 r.2 hleft, untilEmpty_succ]

/-- **What a read returns**, wherever it starts. -/
def Gives (x : Scan ε β α) (P : α → Prop) : Prop := ∀ c a d, x.run c = .ok (a, d) → P a

namespace Gives

variable {P : α → Prop} {Q : γ → Prop}

theorem pure {a : α} (h : P a) : Gives (Pure.pure a : Scan ε β α) P := by
  intro c b d hrun
  cases hrun
  exact h

theorem fail (e : ε) : Gives (fail e : Scan ε β α) P := nofun

theorem lift {r : Except ε α} (h : ∀ a, r = .ok a → P a) : Gives (lift r : Scan ε β α) P :=
  fun _ _ _ hrun => h _ (lift_eq_ok hrun).1

theorem mapError {g : ε → ε'} (h : Gives x P) : Gives (x.mapError g) P :=
  fun c a d hrun => h c a d (mapError_eq_ok hrun)

theorem bind (hx : Gives x P) (hf : ∀ a, P a → Gives (f a) Q) : Gives (x >>= f) Q := by
  intro c b d hrun
  obtain ⟨a, u, hxu, hfd⟩ := bind_eq_ok hrun
  exact hf a (hx c a u hxu) u b d hfd

/-- Whatever the first part returns. -/
theorem skip (hf : ∀ a, Gives (f a) Q) : Gives (x >>= f) Q :=
  bind (P := fun _ => True) (fun _ _ _ _ => trivial) fun a _ => hf a

theorem ite {p : Prop} [Decidable p] {y : Scan ε β α} (hx : p → Gives x P) (hy : ¬ p → Gives y P) :
    Gives (if p then x else y) P := by
  split
  · exact hx ‹_›
  · exact hy ‹_›

variable {body : σ → Scan ε β σ} {Inv : σ → Prop}

/-- What each round of a counted loop keeps holds when it ends. -/
theorem times (h : ∀ s, Inv s → Gives (body s) Inv) (k : ℕ) {s : σ} (hs : Inv s) : Gives (times body k s) Inv := by
  induction k generalizing s with
  | zero => exact pure hs
  | succ k ih => exact (h s hs).bind fun t ht => ih ht

/-- **The loop rule.**  What each round keeps holds when the loop ends. -/
theorem untilEmpty (h : ∀ s, Inv s → Gives (body s) Inv) (fuel : ℕ) {s : σ}
    (hs : Inv s) : Gives (untilEmpty body fuel s) Inv := by
  induction fuel generalizing s with
  | zero => exact pure hs
  | succ fuel ih => exact .skip fun c => .ite (fun _ => pure hs) fun _ => (h s hs).bind fun t ht => ih ht

end Gives

/-- **What a read takes**: if it returns `a`, it has taken symbols `w` with `P a w` and stands behind them. -/
def Takes (x : Scan ε β α) (P : α → List β → Prop) : Prop :=
  ∀ c a d, x.run c = .ok (a, d) → ∃ w, c.remaining = w ++ d.remaining ∧ d = { c with pos := c.pos + w.length } ∧ P a w

namespace Takes

variable {P : α → List β → Prop} {Q : γ → List β → Prop}

theorem pure {a : α} (h : P a []) : Takes (Pure.pure a : Scan ε β α) P := by
  intro c b d hrun
  cases hrun
  exact ⟨[], rfl, rfl, h⟩

theorem fail (e : ε) : Takes (fail e : Scan ε β α) P := nofun

theorem lift {r : Except ε α} (h : ∀ a, r = .ok a → P a []) : Takes (lift r : Scan ε β α) P := by
  intro c a d hrun
  obtain ⟨hr, rfl⟩ := lift_eq_ok hrun
  exact ⟨[], rfl, rfl, h a hr⟩

theorem require (e : ε) (p : Prop) [Decidable p] : Takes (require e p : Scan ε β Unit) fun _ w => w = [] ∧ p := by
  unfold Scan.require
  split
  · exact pure ⟨rfl, ‹p›⟩
  · exact fail e

theorem take (short : ε) (n : ℕ) : Takes (take short n : Scan ε β (List β)) fun l w => w = l ∧ l.length = n := by
  intro c l d hrun
  obtain ⟨hrem, hlen⟩ := remaining_of_take hrun
  obtain ⟨-, -, rfl⟩ := take_eq_ok hrun
  exact ⟨l, hrem, by rw [hlen], rfl, hlen⟩

theorem bind (hx : Takes x P) (hf : ∀ a w, P a w → Takes (f a) fun b v => Q b (w ++ v)) : Takes (x >>= f) Q := by
  intro c b d hrun
  obtain ⟨a, u, hxu, hfd⟩ := bind_eq_ok hrun
  obtain ⟨w, hw, rfl, hP⟩ := hx c a u hxu
  obtain ⟨v, hv, rfl, hQ⟩ := hf a w hP _ b d hfd
  exact ⟨w ++ v, by rw [hw, hv, append_assoc], by rw [length_append, Nat.add_assoc], hQ⟩

theorem map (hx : Takes x P) (g : α → γ) (h : ∀ a w, P a w → Q (g a) w) :
    Takes (x >>= fun a => Pure.pure (g a)) Q :=
  hx.bind fun a w hP => pure (by rw [append_nil]; exact h a w hP)

/-- A counted loop takes a list, one element a round. -/
theorem times {δ : Type} {body : σ → Scan ε β σ} {next : σ → δ → σ} {enc : δ → List β} {ok : δ → Prop}
    (h : ∀ s, Takes (body s) fun t w => ∃ x, ok x ∧ t = next s x ∧ w = enc x) (k : ℕ) (s : σ) :
    Takes (times body k s) fun t w =>
      ∃ xs : List δ, xs.length = k ∧ (∀ x ∈ xs, ok x) ∧ t = xs.foldl next s ∧ w = xs.flatMap enc := by
  induction k generalizing s with
  | zero => exact pure ⟨[], rfl, nofun, rfl, rfl⟩
  | succ k ih =>
    refine (h s).bind ?_
    rintro _ _ ⟨x, hx, rfl, rfl⟩ c t d hrun
    obtain ⟨_, hw, hd, xs, hlen, hxs, rfl, rfl⟩ := ih (next s x) c t d hrun
    exact ⟨_, hw, hd, x :: xs, congrArg (· + 1) hlen, forall_mem_cons.2 ⟨hx, hxs⟩, rfl, flatMap_cons.symm⟩

/-- A read of a whole buffer. -/
theorem whole (hx : Takes x P) {buf : List β} {a : α} (hrun : x.run (.new buf) = .ok (a, d)) (hend : d.pos = buf.length) :
    P a buf := by
  obtain ⟨w, hw, rfl, hP⟩ := hx _ a d hrun
  have hfirst : w <+: buf := ⟨_, hw.symm⟩
  rwa [← hfirst.eq_of_length (by rw [← hend]; exact (Nat.zero_add _).symm)]

end Takes

/-- **What was written is read back**: wherever the symbols `w` come next, the read takes
them all and returns `a`. -/
def Reads (x : Scan ε β α) (w : List β) (a : α) : Prop :=
  ∀ c rest, c.pos ≤ c.buf.length → c.remaining = w ++ rest → x.run c = .ok (a, { c with pos := c.pos + w.length })

namespace Reads

variable {v w : List β} {a : α} {b : γ}

theorem pure (a : α) : Reads (Pure.pure a : Scan ε β α) [] a := fun _ _ _ _ => rfl

theorem lift {r : Except ε α} (h : r = .ok a) : Reads (lift r : Scan ε β α) [] a := by
  subst h
  exact fun _ _ _ _ => rfl

theorem require {e : ε} {p : Prop} [Decidable p] (h : p) : Reads (require e p : Scan ε β Unit) [] () := by
  rw [Scan.require, if_pos h]
  exact pure ()

theorem take (short : ε) (w : List β) : Reads (Scan.take short w.length) w w := by
  intro c rest hpos hw
  have hlen := congrArg length hw
  rw [Cursor.remaining, length_drop, length_append] at hlen
  have hfits : c.pos + w.length ≤ c.buf.length := by omega
  simp only [Scan.take, if_pos hfits]
  rw [show c.buf.drop c.pos = w ++ rest from hw, take_left]

/-- The same for a length given otherwise. -/
theorem take_of_length (short : ε) {n : ℕ} (h : w.length = n) : Reads (Scan.take short n) w w :=
  h ▸ take short w

theorem bind (hx : Reads x w a) (hf : Reads (f a) v b) : Reads (x >>= f) (w ++ v) b := by
  intro c rest hpos hw
  rw [append_assoc] at hw
  have hlen := congrArg length hw
  simp only [Cursor.remaining, length_drop, length_append] at hlen
  have hpos' : c.pos + w.length ≤ c.buf.length := by omega
  have hnext : ({ c with pos := c.pos + w.length } : Cursor β).remaining = v ++ rest := by
    rw [Cursor.remaining] at hw ⊢
    rw [← drop_drop, hw, drop_left]
  rw [run_bind, hx c _ hpos hw]
  simp only [hf _ rest hpos' hnext, length_append, Nat.add_assoc]

/-- A read that takes nothing, and another. -/
theorem andThen (hx : Reads x [] a) (hf : Reads (f a) v b) : Reads (x >>= f) v b := hx.bind hf

theorem map (hx : Reads x w a) (g : α → γ) : Reads (x >>= fun a => Pure.pure (g a)) w (g a) := by
  have h : Reads (x >>= fun a => Pure.pure (g a)) (w ++ []) (g a) := bind hx (pure (g a))
  rwa [append_nil] at h

/-- A counted loop reads a list, one element a round. -/
theorem times {δ : Type} {body : σ → Scan ε β σ} (next : σ → δ → σ) (enc : δ → List β)
    (xs : List δ) (h : ∀ s, ∀ x ∈ xs, Reads (body s) (enc x) (next s x)) (s : σ) :
    Reads (times body xs.length s) (xs.flatMap enc) (xs.foldl next s) := by
  induction xs generalizing s with
  | nil => exact pure s
  | cons x xs ih =>
    exact (h s x mem_cons_self).bind (ih (fun t y hy => h t y (mem_cons_of_mem _ hy)) (next s x))

/-- What follows is left. -/
theorem run_append (hx : Reads x w a) {rest : List β} (hpos : c.pos ≤ c.buf.length) (hw : c.remaining = w ++ rest) :
    ∃ d, x.run c = .ok (a, d) ∧ d.pos ≤ d.buf.length ∧ d.remaining = rest := by
  refine ⟨_, hx c rest hpos hw, ?_, ?_⟩
  · have hlen := congrArg length hw
    simp only [Cursor.remaining, length_drop, length_append] at hlen
    change c.pos + w.length ≤ c.buf.length
    omega
  · rw [Cursor.remaining] at hw ⊢
    rw [← drop_drop, hw, drop_left]

/-- The rest is for the second part of a composition. -/
theorem bind_append (hx : Reads x w a) (f : α → Scan ε β γ) {rest : List β} (hpos : c.pos ≤ c.buf.length)
    (hw : c.remaining = w ++ rest) :
    ∃ d, (x >>= f).run c = (f a).run d ∧ d.pos ≤ d.buf.length ∧ d.remaining = rest := by
  obtain ⟨d, hrun, hd, hrest⟩ := hx.run_append hpos hw
  exact ⟨d, by rw [run_bind, hrun], hd, hrest⟩

/-- Over a whole buffer. -/
theorem run_new (hx : Reads x w a) : x.run (.new w) = .ok (a, { buf := w, pos := w.length }) := by
  have h := hx (.new w) [] (Nat.zero_le _) (by rw [Cursor.remaining, append_nil]; rfl)
  rw [h]
  simp only [Cursor.new, Nat.zero_add]

end Reads

end Scan

end Lib
