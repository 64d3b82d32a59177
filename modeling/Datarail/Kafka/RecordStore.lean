/-
# What the broker asks of its partition logs

`KafkaBrokerStore` (`crates/datarail-cli/src/main.rs`) seals records and keeps
them in one durable log per partition.  A `RecordStore` is that part of it: open a
log, append a batch, fetch, restart.  Each call is made under a `DiskFault`, what
the disk does during it; the laws say what may be read afterwards.  They are the
whole of what the transaction results use of the logs, and they are proved of the
segment files, the reconciliation of a failed batch included, for terminals with
one contract at both ends (`Sealing.store` in `Datarail.Kafka.SealedStore`).
`lists` is a store with nothing behind it.

A fault strikes at a point of the call and either makes the call fail or kills
the process there.  A write that stops inside a frame and is survived leaves
bytes the log does not account for; no law is given for it.
-/

import Datarail.Kafka.Txn
import Datarail.Lib.Effect
import Datarail.Lib.IoError

namespace Datarail.Kafka

open Lib List Option

/-- Where a fault strikes. -/
inductive FaultPoint where
  /-- While the partition's log is opened or recovered. -/
  | opening
  /-- While the given record of the batch is sealed. -/
  | sealing (record : ℕ)
  /-- While the frame of the given record is written, after so many bytes of it. -/
  | writing (record bytes : ℕ)
  /-- In the `fsync` after the last frame. -/
  | syncing
  deriving DecidableEq, Repr

/-- What the disk does during one call. -/
inductive DiskFault where
  | none
  | strikes (point : FaultPoint) (dies : Bool)
  deriving DecidableEq, Repr

namespace DiskFault

/-- An append of `n` records is not hit by the fault. -/
def Spares (n : ℕ) : DiskFault → Prop
  | .none => True
  | .strikes .opening _ => True
  | .strikes (.sealing record) _ => n ≤ record
  | .strikes (.writing record _) _ => n ≤ record
  | .strikes .syncing _ => False

instance (n : ℕ) : ∀ f : DiskFault, Decidable (f.Spares n)
  | .none => inferInstanceAs (Decidable True)
  | .strikes .opening _ => inferInstanceAs (Decidable True)
  | .strikes (.sealing record) _ => inferInstanceAs (Decidable (n ≤ record))
  | .strikes (.writing record _) _ => inferInstanceAs (Decidable (n ≤ record))
  | .strikes .syncing _ => inferInstanceAs (Decidable False)

/-- The fault does not strike while a log is opened. -/
def SparesOpening : DiskFault → Prop
  | .strikes .opening _ => False
  | _ => True

/-- A batch of `n` records that the fault stops leaves no record behind: the
fault strikes before the first byte of it is written. -/
def Harmless (n : ℕ) : DiskFault → Prop
  | .none => True
  | .strikes .opening _ => True
  | .strikes (.sealing _) _ => True
  | .strikes (.writing record bytes) dies => n ≤ record ∨ (record = 0 ∧ (dies = true ∨ bytes = 0))
  | .strikes .syncing _ => n = 0

instance (n : ℕ) : ∀ f : DiskFault, Decidable (f.Harmless n)
  | .none => inferInstanceAs (Decidable True)
  | .strikes .opening _ => inferInstanceAs (Decidable True)
  | .strikes (.sealing _) _ => inferInstanceAs (Decidable True)
  | .strikes (.writing _ _) _ => inferInstanceAs (Decidable (_ ∨ (_ ∧ (_ ∨ _))))
  | .strikes .syncing _ => inferInstanceAs (Decidable (n = 0))

/-- How many records of a batch of `n` are whole frames of the log once the
fault is over; `none` when the process goes on with a frame cut short. -/
def left (n : ℕ) : DiskFault → Option ℕ
  | .none => some n
  | .strikes .opening _ => some n
  | .strikes (.sealing record) _ => if n ≤ record then some n else some 0
  | .strikes (.writing record bytes) dies =>
    if n ≤ record then some n
    else if dies ∨ bytes = 0 then some record
    else Option.none
  | .strikes .syncing _ => some n

variable {f : DiskFault} {n : ℕ}

theorem left_of_spares (h : f.Spares n) : f.left n = some n := by
  cases f with
  | none => rfl
  | strikes point dies =>
    cases point with
    | opening => rfl
    | sealing record => exact if_pos h
    | writing record bytes => exact if_pos h
    | syncing => exact h.elim

theorem harmless_of_spares (h : f.Spares n) : f.Harmless n := by
  cases f with
  | none => trivial
  | strikes point dies =>
    cases point with
    | opening => trivial
    | sealing record => trivial
    | writing record bytes => exact .inl h
    | syncing => exact h.elim

/-- Of an empty batch there is nothing to leave behind. -/
theorem harmless_zero (f : DiskFault) : f.Harmless 0 := by
  cases f with
  | none => trivial
  | strikes point dies =>
    cases point with
    | opening => trivial
    | sealing record => trivial
    | writing record bytes => exact .inl (Nat.zero_le _)
    | syncing => rfl

/-- Of a batch that is hit, a fault leaves nothing exactly when it is harmless. -/
theorem left_eq_zero_iff {n k : ℕ} (hhit : ¬ f.Spares n) (hk : f.left n = some k) : f.Harmless n ↔ k = 0 := by
  cases f with
  | none => exact absurd trivial hhit
  | strikes point dies =>
    cases point with
    | opening => exact absurd trivial hhit
    | sealing record =>
      have hrec : ¬ n ≤ record := hhit
      simp only [left, if_neg hrec, some.injEq] at hk
      exact ⟨fun _ => hk.symm, fun _ => trivial⟩
    | writing record bytes =>
      have hrec : ¬ n ≤ record := hhit
      simp only [left, if_neg hrec] at hk
      split_ifs at hk with hend
      obtain rfl := some.inj hk
      simp only [Harmless, hrec, false_or]
      exact ⟨And.left, fun hz => ⟨hz, hend⟩⟩
    | syncing =>
      rw [← some.inj hk]
      rfl

/-- A harmless fault leaves no frame cut short. -/
theorem left_of_harmless (hhit : ¬ f.Spares n) (h : f.Harmless n) : f.left n = some 0 := by
  cases f with
  | none => exact absurd trivial hhit
  | strikes point dies =>
    cases point with
    | opening => exact absurd trivial hhit
    | sealing record => exact if_neg hhit
    | writing record bytes =>
      have hrec : ¬ n ≤ record := hhit
      obtain ⟨rfl, hend⟩ := h.resolve_left hrec
      simp only [left, if_neg hrec, if_pos hend]
    | syncing =>
      rw [show n = 0 from h]
      rfl

theorem left_le {n k : ℕ} (h : f.left n = some k) : k ≤ n := by
  cases f with
  | none => exact (some.inj h).ge
  | strikes point dies =>
    cases point with
    | opening => exact (some.inj h).ge
    | sealing record =>
      simp only [left] at h
      split_ifs at h <;> have := some.inj h <;> omega
    | writing record bytes =>
      simp only [left] at h
      split_ifs at h <;> have := Option.some.inj h <;> omega
    | syncing => exact (some.inj h).ge

end DiskFault

/-- `i64::try_from(n).unwrap_or(i64::MAX)`. -/
def clampI64 (n : ℕ) : ℤ := min (n : ℤ) i64Max

/-- The partition logs of a broker, over records `ρ`. -/
structure RecordStore (ρ : Type) where
  /-- The logs: what is on disk, and what the process holds of it. -/
  State : Type
  /-- An empty data directory. -/
  init : State
  /-- `onboarding.validate`. -/
  validate : ρ → Bool
  /-- `partition_log(..).len()`, opening or recovering the log at first use. -/
  openLog : DiskFault → TopicPartition → Action ErrorKind State ℕ
  /-- Seal a batch and `append_durable` it; the base offset. -/
  append : DiskFault → TopicPartition → List ρ → Action ErrorKind State ℤ
  /-- The store's `fetch(topic, partition, offset, max_bytes)`. -/
  fetch : TopicPartition → ℤ → ℤ → Action ErrorKind State (List ρ)
  /-- The process ends and another takes its place. -/
  restart : State → State
  /-- The records of a partition that a fetch can reach, in offset order. -/
  contents : State → TopicPartition → List ρ
  /-- No frame has been cut short under a running process. -/
  Sound : State → Prop
  sound_init : Sound init
  contents_init : ∀ tp, contents init tp = []
  sound_restart : ∀ {s}, Sound s → Sound (restart s)
  contents_restart : ∀ {s}, Sound s → contents (restart s) = contents s
  sound_openLog : ∀ {s} f tp, Sound s → Sound ((openLog f tp).run s).2
  contents_openLog : ∀ {s} f tp, Sound s → contents ((openLog f tp).run s).2 = contents s
  openLog_ok : ∀ {s f tp n t}, Sound s → (openLog f tp).run s = (.ok n, t) → n = (contents s tp).length
  openLog_spared : ∀ {s f} tp, Sound s → f.SparesOpening → ∃ n, ((openLog f tp).run s).1 = .ok n
  append_ok : ∀ {s f tp rs b t}, Sound s → (∀ r ∈ rs, validate r = true) →
    (append f tp rs).run s = (.ok b, t) → f.Spares rs.length ∧ b = clampI64 (contents s tp).length
  append_spares : ∀ {s f rs} tp, Sound s → (∀ r ∈ rs, validate r = true) →
    f.Spares rs.length → ∃ b, ((append f tp rs).run s).1 = .ok b
  append_left : ∀ {s f rs k} tp, Sound s → (∀ r ∈ rs, validate r = true) →
    f.left rs.length = some k → Sound ((append f tp rs).run s).2 ∧ contents ((append f tp rs).run s).2 =
        Function.update (contents s) tp (contents s tp ++ rs.take k)
  sound_fetch : ∀ {s} tp o m, Sound s → Sound ((fetch tp o m).run s).2
  contents_fetch : ∀ {s} tp o m, Sound s → contents ((fetch tp o m).run s).2 = contents s
  fetch_ok : ∀ {s} tp (o : ℕ) m, Sound s → ∃ k, ((fetch tp o m).run s).1 =
    .ok (((contents s tp).drop o).take k) ∧ (o < (contents s tp).length → 0 < k)
  fetch_neg : ∀ {s} tp o m, Sound s → o < 0 → ((fetch tp o m).run s).1 = .ok []

namespace RecordStore

variable {ρ : Type} (S : RecordStore ρ)

/-- An append that returned has added the batch, whole, to its partition. -/
theorem append_run_ok {s t : S.State} {f : DiskFault} {rs : List ρ} {b : ℤ}
    (tp : TopicPartition) (hs : S.Sound s) (hv : ∀ r ∈ rs, S.validate r = true)
    (h : (S.append f tp rs).run s = (.ok b, t)) :
    S.Sound t ∧ S.contents t = Function.update (S.contents s) tp (S.contents s tp ++ rs) ∧
      b = clampI64 (S.contents s tp).length := by
  obtain ⟨hsp, hb⟩ := S.append_ok hs hv h
  have hl := S.append_left tp hs hv (DiskFault.left_of_spares hsp)
  rw [h, take_length] at hl
  exact ⟨hl.1, hl.2, hb⟩

/-- How a call ends when the fault strikes. -/
def faultStop (dies : Bool) : Stop ErrorKind := if dies then .died else .failed .other

/-- **What the logs are for**: a list of records per partition.  The store with
nothing behind it, on which a run of the broker can be evaluated. -/
def lists (ρ : Type) : RecordStore ρ where
  State := TopicPartition → List ρ
  init := fun _ => []
  validate := fun _ => true
  openLog f tp := ⟨fun s =>
    match f with
    | .strikes .opening dies => (.stop (faultStop dies), s)
    | _ => (.ok (s tp).length, s)⟩
  append f tp rs := ⟨fun s =>
    if f.Spares rs.length then (.ok (clampI64 (s tp).length), Function.update s tp (s tp ++ rs))
    else
      (match f with
        | .strikes _ dies => .stop (faultStop dies)
        | .none => .stop (.failed .other),
        Function.update s tp (s tp ++ rs.take ((f.left rs.length).getD 0)))⟩
  fetch tp o _ := ⟨fun s => (.ok (if o < 0 then [] else (s tp).drop o.toNat), s)⟩
  restart s := s
  contents s := s
  Sound _ := True
  sound_init := trivial
  contents_init _ := rfl
  sound_restart _ := trivial
  contents_restart _ := rfl
  sound_openLog _ _ _ := trivial
  contents_openLog f tp _ := by
    dsimp only
    split <;> rfl
  openLog_ok _ h := by
    dsimp only at h
    split at h
    · cases h
    · exact (Outcome.ok.inj (Prod.mk.inj h).1).symm
  openLog_spared {s f} tp _ h := by
    dsimp only
    split
    · exact h.elim
    · exact ⟨_, rfl⟩
  append_ok _ _ h := by
    dsimp only at h
    split at h
    · rename_i hsp
      exact ⟨hsp, (Outcome.ok.inj (Prod.mk.inj h).1).symm⟩
    · split at h <;> cases h
  append_spares _ _ _ h := ⟨_, by dsimp only; rw [if_pos h]⟩
  append_left {s f rs k} tp _ _ h := by
    refine ⟨trivial, ?_⟩
    dsimp only
    split
    · rename_i hsp
      rw [DiskFault.left_of_spares hsp] at h
      rw [← some.inj h, take_length]
    · rw [h, getD_some]
  sound_fetch _ _ _ _ := trivial
  contents_fetch _ _ _ _ := rfl
  fetch_ok {s} tp o m _ := by
    refine ⟨(s tp).length, ?_, fun h => Nat.zero_lt_of_lt h⟩
    dsimp only
    rw [if_neg (by omega), Int.toNat_natCast, take_of_length_le (by simp)]
  fetch_neg _ _ _ _ h := by
    dsimp only
    rw [if_pos h]

end RecordStore

end Datarail.Kafka
