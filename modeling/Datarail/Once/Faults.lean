/-
# A gate whose file fails

`FileOnce::admit` asks the gate in memory first and writes its answer to the log afterwards.  Each of the steps
that follow a `Delivered` can fail: the write (after some bytes of the record), the sync, and in a compaction all
that happens before the rename, the reopening of the log and the sync of the directory.  `?` then leaves the call,
and nothing takes the admission back: the caller, told of an error, presents the record again and is answered
`Duplicate`.
-/

import Datarail.Once.Recovery

namespace Datarail.Once

open Lib StreamState

theorem Gate.delivered_iff {ι κ : Type} [DecidableEq ι] [DecidableEq κ] {g : Gate ι κ} {s : ι} {seq : ℕ} {key : κ} :
    (g.admitSeq s seq key).2 = .delivered ↔ ¬ (g.stream s).Repeats seq key := by
  change (StreamState.admitSeq _ _ _ _).2 = _ ↔ _
  rw [StreamState.admitSeq_eq]
  split_ifs with hrep <;> simp [hrep]

/-- The step of an admission that fails. -/
inductive AdmitFault where
  | write (n : ℕ)
  | sync
  | snapshot
  | reopen
  | syncDir
  deriving DecidableEq

/-- `FileOnce` with the bytes under the name `once.log`; `detached` says that its handle is of the file that a
rename has replaced. -/
structure LiveOnce extends FileOnce where
  detached : Bool

namespace LiveOnce

variable (C : Crypto) (compactEvery : ℕ) (order : KeyOrder (Arr 16))

/-- Write to the handle. -/
def write (f : LiveOnce) (bytes : Bytes) : LiveOnce :=
  if f.detached then f else { f with log := f.log ++ bytes }

/-- `compact`. -/
def compact (fault : Option AdmitFault) (f : LiveOnce) : LiveOnce × Except AdmitFault Unit :=
  match fault with
  | some .snapshot => (f, .error .snapshot)
  | some .reopen => ({ f with log := (f.toFileOnce.compact C order).log, detached := true }, .error .reopen)
  | some .syncDir => ({ f with log := (f.toFileOnce.compact C order).log, detached := false }, .error .syncDir)
  | _ => ({ f.toFileOnce.compact C order with detached := false }, .ok ())

/-- What `admit` does to the file once the gate has delivered. -/
def persist (f : LiveOnce) (a : Admission (Arr 16) (Arr 32)) (fault : Option AdmitFault) :
    LiveOnce × Except AdmitFault Unit :=
  let record := encodeRecord C (.delivered a.stream a.seq a.key)
  match fault with
  | some (.write n) => (f.write (record.take n), .error (.write n))
  | some .sync => (f.write record, .error .sync)
  | _ =>
    let f := { f.write record with appended := f.appended + 1 }
    if compactEvery ≤ f.appended then f.compact C order fault else (f, .ok ())

/-- `FileOnce::admit`; an error tells the step that failed. -/
def admitSeq (f : LiveOnce) (a : Admission (Arr 16) (Arr 32)) (fault : Option AdmitFault) :
    LiveOnce × Except AdmitFault Disposition :=
  let (once, disposition) := f.once.admitSeq a.stream a.seq a.key
  let f := { f with once }
  if disposition = .delivered then
    let (f, result) := f.persist C compactEvery order a fault
    (f, result.map fun _ => disposition)
  else (f, .ok disposition)

variable {C compactEvery order} {f : LiveOnce} {a : Admission (Arr 16) (Arr 32)} {fault : Option AdmitFault}

@[simp] theorem once_write (bytes : Bytes) : (f.write bytes).once = f.once := by
  unfold write
  split_ifs <;> rfl

theorem once_persist : (f.persist C compactEvery order a fault).1.once = f.once := by
  rcases fault with _ | (n | _ | _ | _ | _) <;> simp only [persist, compact, once_write]
  all_goals split_ifs <;> simp [FileOnce.compact]

/-- Whatever fails, the gate in memory has admitted the record. -/
theorem once_admitSeq : (f.admitSeq C compactEvery order a fault).1.once = (Gate.machine.step f.once a).1 := by
  simp only [admitSeq]
  split_ifs
  · exact once_persist
  · rfl

/-- While nothing fails it is the gate on a disk that does not fail. -/
theorem admitSeq_calm (hf : f.detached = false) : (f.admitSeq C compactEvery order a none).1 =
        { (f.toFileOnce.admitSeq C compactEvery order a).1 with detached := false } ∧
      (f.admitSeq C compactEvery order a none).2 = .ok (f.toFileOnce.admitSeq C compactEvery order a).2 := by
  obtain ⟨g, _⟩ := f
  obtain rfl := hf
  by_cases hd : (g.once.admitSeq a.stream a.seq a.key).2 = .delivered
  · by_cases hdue : compactEvery ≤ g.appended + 1 <;>
      simp [admitSeq, FileOnce.admitSeq, persist, write, compact, FileOnce.append, hd, hdue, Except.map]
  · simp [admitSeq, FileOnce.admitSeq, hd]

/-- The call makes the step that fails. -/
def Reaches (compactEvery : ℕ) (f : LiveOnce) : AdmitFault → Prop
  | .write _ | .sync => True
  | _ => compactEvery ≤ f.appended + 1

theorem persist_error_iff :
    (∃ e, (f.persist C compactEvery order a fault).2 = .error e) ↔ ∃ e, fault = some e ∧ f.Reaches compactEvery e := by
  by_cases hdue : compactEvery ≤ f.appended + 1 <;>
    rcases fault with _ | (n | _ | _ | _ | _) <;> simp [persist, compact, Reaches, hdue]

/-- **When an admission fails**: the record is new, and the call makes the step that fails. -/
theorem admitSeq_error_iff : (∃ e, (f.admitSeq C compactEvery order a fault).2 = .error e) ↔
      ¬ (f.once.stream a.stream).Repeats a.seq a.key ∧ ∃ e, fault = some e ∧ f.Reaches compactEvery e := by
  rw [← Gate.delivered_iff]
  simp only [admitSeq]
  split_ifs with hd
  · have hiff : (∃ e, (persist C compactEvery order { f with once := (f.once.admitSeq a.stream a.seq a.key).1 } a
        fault).2 = .error e) ↔ ∃ e, fault = some e ∧ f.Reaches compactEvery e := persist_error_iff
    rw [and_iff_right hd, ← hiff]
    cases (persist C compactEvery order _ a fault).2 <;> simp [Except.map]
  · simp [hd]

end LiveOnce

/-- **A number that was delivered is a repeat**, whatever the state of the stream. -/
theorem StreamState.repeats_deliver {κ : Type} [DecidableEq κ] (gcLag : ℕ) (st : StreamState κ) (seq : ℕ) (key : κ) :
    (st.deliver gcLag seq key).Repeats seq key := by
  simp only [Repeats, deliver, lowWatermark_collect, get_collect, AList.lookup_insert]
  split_ifs with hforgotten
  · exact .inl (by omega)
  · exact .inr (.inr rfl)

/-- What happens to a gate whose file may fail. -/
inductive LiveEvent where
  | admitSeq (a : Admission (Arr 16) (Arr 32)) (fault : Option AdmitFault)
  | reopen

/-- The runs of a gate whose file may fail. -/
def liveMachine (C : Crypto) (gcLag compactEvery : ℕ) (order : KeyOrder (Arr 16)) :
    Machine LiveOnce LiveEvent (Option (Except AdmitFault Disposition)) where
  step f
    | .admitSeq a fault =>
      ((f.admitSeq C compactEvery order a fault).1, some (f.admitSeq C compactEvery order a fault).2)
    | .reopen => ({ FileOnce.open C gcLag f.log with detached := false }, none)

/-- The record has been answered `Delivered`. -/
def AnsweredDelivered (history : List (LiveEvent × Option (Except AdmitFault Disposition)))
    (a : Admission (Arr 16) (Arr 32)) : Prop :=
  ∃ fault, (.admitSeq a fault, some (.ok .delivered)) ∈ history

/-- **When a failed admission can be retried**: in whatever state, a record whose admission failed is not answered
`Duplicate` when it is presented again, unless it had been answered `Delivered`, exactly if it had been, or it was
a repeat already, or the call made no step that fails. -/
theorem failed_admit_retried_iff (C : Crypto) (gcLag compactEvery : ℕ) (order : KeyOrder (Arr 16)) (start : LiveOnce)
    (events : List LiveEvent) (a : Admission (Arr 16) (Arr 32)) (fault : Option AdmitFault) :
    let f := (liveMachine C gcLag compactEvery order).final start events
    let history := (liveMachine C gcLag compactEvery order).trace start events
    let failed := f.admitSeq C compactEvery order a fault
    ((∃ e, failed.2 = .error e) →
        AnsweredDelivered history a ∨ ∀ again, (failed.1.admitSeq C compactEvery order a again).2 ≠ .ok .duplicate) ↔
      AnsweredDelivered history a ∨ (f.once.stream a.stream).Repeats a.seq a.key ∨
        ∀ e, fault = some e → ¬ f.Reaches compactEvery e := by
  intro f history failed
  have hagain : ¬ (f.once.stream a.stream).Repeats a.seq a.key →
      (failed.1.admitSeq C compactEvery order a none).2 = .ok .duplicate := by
    intro hnew
    have hanswer : (failed.1.once.admitSeq a.stream a.seq a.key).2 = .duplicate := by
      change (admitSeq _ _ _ _).2 = _
      rw [LiveOnce.once_admitSeq, Gate.stream_step, if_pos rfl, admitSeq_eq _ (f.once.stream _), if_neg hnew,
        admitSeq_eq, if_pos (repeats_deliver _ _ _ _)]
    simp only [LiveOnce.admitSeq, hanswer]
    rfl
  rw [LiveOnce.admitSeq_error_iff]
  constructor
  · intro h
    by_contra hcond
    simp only [not_or, not_forall, not_not] at hcond
    obtain ⟨hbefore, hnew, e, he, hreached⟩ := hcond
    rcases h ⟨hnew, e, he, hreached⟩ with hanswered | hretry
    · exact hbefore hanswered
    · exact hretry none (hagain hnew)
  · rintro (hbefore | hrep | hcalm) ⟨hnew, e, he, hreached⟩
    · exact .inl hbefore
    · exact absurd hrep hnew
    · exact absurd hreached (hcalm e he)

/-- **A record is lost to an error.**  The first write of a new gate fails before its first byte, and the record
that was never delivered is a duplicate from then on. -/
theorem failed_admit_becomes_duplicate :
    let a : Admission (Arr 16) (Arr 32) := ⟨Arr.zero 16, 0, Crypto.fit 32 [1]⟩
    let start : LiveOnce := { FileOnce.open Crypto.transparent defaultGcLag [] with detached := false }
    ((liveMachine Crypto.transparent defaultGcLag defaultCompactEvery inOrder).trace start
        [.admitSeq a (some (.write 0)), .admitSeq a none]).map Prod.snd =
      [some (.error (.write 0)), some (.ok .duplicate)] := by
  decide +kernel

end Datarail.Once
