/-
# What a write-ahead log holds

The bytes of a log are frames in segments.  Here they are entries: cofres, each with the
number of its segment, in the order in which they were sent.  `bytesAt` are the bytes that
some entries take in a segment, and `Divides` says that a segment number and an offset stand
between two runs of entries.

`Reading` is all that `recv` depends on: what is behind the cursor, what is ahead of it, and
what is in the buffer.  With it `recv` returns the first entry ahead (`recv_cons`), flushes
the buffer when nothing is ahead (`recv_flush`), and returns nothing at the end (`recv_nil`).
Called again and again it returns everything, in order (`drains`).
-/

import Datarail.Wal.Log

namespace Datarail.Wal

open Lib List DurableLog

/-- A cofre and the segment it is in. -/
abbrev Entry := ℕ × Cofre

/-- A cofre that can be sent. -/
def FitsWire (cofre : Cofre) : Prop := cofre.encode.length ≤ maxCofreWireLen

theorem fits_encode {cofre : Cofre} (h : FitsWire cofre) : wire.Fits cofre.encode := by
  have hlen := Cofre.length_encode cofre
  exact wire_fits.2 ⟨by omega, h⟩

theorem decode_encode {cofre : Cofre} (h : FitsWire cofre) : Cofre.decode cofre.encode = .ok cofre := by
  refine Cofre.decode_encode ?_
  have hlen := Cofre.length_encode cofre
  have hmax : maxCofreWireLen < 2 ^ 64 := by decide
  unfold FitsWire at h
  unfold Cofre.Fits
  omega

section Frames

theorem parse_eq (bytes : Bytes) : wire.parse bytes = if bytes.length < 4 then none
    else if decide (0 < beNat (bytes.take 4) ∧ beNat (bytes.take 4) ≤ maxCofreWireLen) = false then none
    else if bytes.length < 4 + beNat (bytes.take 4) + 4 then none
    else if (bytes.drop (4 + beNat (bytes.take 4))).take 4 ≠
      checks.checksum (bytes.take (4 + beNat (bytes.take 4))) then none
    else some ((bytes.drop 4).take (beNat (bytes.take 4)), bytes.drop (4 + beNat (bytes.take 4) + 4)) := rfl

/-- `read_frame` finds what the format finds. -/
theorem readFrame_of_parse {bytes body rest : Bytes} (h : wire.parse bytes = some (body, rest)) (active : Bool) :
    readFrame bytes active = .ok (some (body, (wire.frame body).length)) := by
  have hlen : (wire.frame body).length = 8 + body.length := by
    rw [Nat.add_comm]
    exact Codec.length_checkedFrame checks body
  rw [parse_eq] at h
  split_ifs at h with h₁ h₂ h₃ h₄
  obtain ⟨hbody, -⟩ := Prod.mk.inj (Option.some.inj h)
  have hok : 0 < beNat (bytes.take 4) ∧ beNat (bytes.take 4) ≤ maxCofreWireLen := by simpa using h₂
  have hn : body.length = beNat (bytes.take 4) := by
    rw [← hbody, length_take, length_drop]
    omega
  simp only [readFrame]
  rw [if_neg h₁, if_neg (by omega), if_neg (by omega), if_neg h₃, if_neg h₄, hlen, hbody, hn]

/-- Bytes that begin with no frame are the end, except that in a sealed segment four of them are damage. -/
theorem readFrame_of_parse_none {bytes : Bytes} (h : wire.parse bytes = none) (active : Bool) :
    ∃ what, readFrame bytes active =
      if bytes.length < 4 ∨ active = true then .ok none else .error (.corrupt ("sealed segment: " ++ what)) := by
  by_cases h₁ : bytes.length < 4
  · exact ⟨"", by rw [readFrame, if_pos h₁, if_pos (.inl h₁)]⟩
  · simp only [readFrame, h₁, if_false, false_or]
    by_cases h₂ : beNat (bytes.take 4) = 0 ∨ maxCofreWireLen < beNat (bytes.take 4)
    · exact ⟨_, if_pos h₂⟩
    · rw [parse_eq, if_neg h₁, if_neg (by simp; omega)] at h
      rw [if_neg h₂]
      by_cases h₃ : bytes.length < 4 + beNat (bytes.take 4)
      · exact ⟨_, if_pos h₃⟩
      · by_cases h₄ : bytes.length < 4 + beNat (bytes.take 4) + 4
        · exact ⟨_, by rw [if_neg h₃, if_pos h₄]⟩
        · rw [if_neg h₄, ite_eq_left_iff] at h
          exact ⟨_, by rw [if_neg h₃, if_neg h₄, if_pos fun heq => by cases h (not_not.2 heq)]⟩

theorem readFrame_nil (active : Bool) : readFrame [] active = .ok none := rfl

/-- The scan that opens a log finds the whole frames. -/
theorem recoverSegmentEnd_eq {before tail : Bytes} {bodies : List Bytes} {fuel : ℕ}
    (hfits : ∀ body ∈ bodies, wire.Fits body) (htail : wire.parse tail = none) (hfuel : bodies.length < fuel) :
    recoverSegmentEnd fuel (before ++ (wire.frames bodies ++ tail)) before.length =
      (before ++ wire.frames bodies).length := by
  induction bodies generalizing before fuel with
  | nil =>
    cases fuel with
    | zero => omega
    | succ fuel =>
      obtain ⟨what, hread⟩ := readFrame_of_parse_none htail true
      rw [if_pos (.inr rfl)] at hread
      rw [recoverSegmentEnd, drop_left, Codec.frames_nil, nil_append, hread, append_nil]
  | cons body bodies ih =>
    cases fuel with
    | zero => omega
    | succ fuel =>
      have hbody := hfits body mem_cons_self
      have hnext := @ih (before ++ wire.frame body) fuel
        (fun b hb => hfits b (mem_cons_of_mem _ hb)) (by simpa using hfuel)
      rw [length_append, append_assoc, ← append_assoc (wire.frame body)] at hnext
      rw [recoverSegmentEnd, drop_left, Codec.frames_cons, append_assoc,
        readFrame_of_parse (Codec.parse_frame hbody _), ← append_assoc (wire.frame body)]
      exact hnext.trans (by rw [append_assoc])

end Frames

/-- The bytes that some entries take in a segment. -/
def bytesAt (es : List Entry) (s : ℕ) : Bytes :=
  wire.frames ((es.filter fun e => decide (e.1 = s)).map fun e => e.2.encode)

section BytesAt

@[simp] theorem bytesAt_nil (s : ℕ) : bytesAt [] s = [] := rfl

@[simp] theorem bytesAt_append (es es' : List Entry) (s : ℕ) :
    bytesAt (es ++ es') s = bytesAt es s ++ bytesAt es' s := by
  simp [bytesAt]

theorem bytesAt_cons (e : Entry) (es : List Entry) (s : ℕ) :
    bytesAt (e :: es) s = if e.1 = s then wire.frame e.2.encode ++ bytesAt es s else bytesAt es s := by
  unfold bytesAt
  split_ifs with h
  · simp [h]
  · simp [h]

theorem bytesAt_eq_nil {es : List Entry} {s : ℕ} (h : ∀ e ∈ es, e.1 ≠ s) : bytesAt es s = [] := by
  rw [bytesAt, filter_eq_nil_iff.2 fun e he => by simpa using h e he]
  rfl

/-- Cofres that are all in one segment. -/
theorem bytesAt_tagged (cofres : List Cofre) (s t : ℕ) :
    bytesAt (cofres.map fun c => (s, c)) t = if s = t then wire.frames (cofres.map Cofre.encode) else [] := by
  split_ifs with h
  · subst h
    rw [bytesAt, filter_eq_self.2 fun e he => ?_, map_map]
    · rfl
    · obtain ⟨c, -, rfl⟩ := mem_map.1 he
      exact decide_eq_true rfl
  · refine bytesAt_eq_nil fun e he => ?_
    obtain ⟨c, -, rfl⟩ := mem_map.1 he
    exact h

theorem eq_nil_of_bytesAt {es : List Entry} {s : ℕ} (hall : ∀ e ∈ es, e.1 = s) (h : bytesAt es s = []) : es = [] := by
  cases es with
  | nil => rfl
  | cons e es =>
    rw [bytesAt_cons, if_pos (hall e mem_cons_self)] at h
    exact absurd (append_eq_nil_iff.1 h).1 (wire.frame_ne_nil _)

end BytesAt

/-- A segment and an offset stand between two runs of entries. -/
structure Divides (before after : List Entry) (id off : ℕ) : Prop where
  behind : ∀ e ∈ before, e.1 ≤ id
  ahead : ∀ e ∈ after, id ≤ e.1
  off_eq : off = (bytesAt before id).length

namespace Divides

variable {before after : List Entry} {id off : ℕ}

theorem drop (h : Divides before after id off) : (bytesAt (before ++ after) id).drop off = bytesAt after id := by
  rw [bytesAt_append, h.off_eq, drop_left]

theorem next (h : Divides before after id off) (hnone : ∀ e ∈ after, e.1 ≠ id) : Divides before after (id + 1) 0 where
  behind e he := (h.behind e he).trans (Nat.le_succ id)
  ahead e he := lt_of_le_of_ne (h.ahead e he) (hnone e he).symm
  off_eq := by
    rw [bytesAt_eq_nil fun e he => ?_]
    · rfl
    · have := h.behind e he
      omega

theorem seek {e : Entry} (h : Divides before (e :: after) id off)
    (hsorted : (e :: after).Pairwise fun x y => x.1 ≤ y.1) :
    Divides before (e :: after) e.1 (bytesAt before e.1).length where
  behind x hx := (h.behind x hx).trans (h.ahead e mem_cons_self)
  ahead := forall_mem_cons.2 ⟨le_refl _, (pairwise_cons.1 hsorted).1⟩
  off_eq := rfl

theorem step {e : Entry} (h : Divides before (e :: after) e.1 off) :
    Divides (before ++ [e]) after e.1 (off + (wire.frame e.2.encode).length) where
  behind := forall_mem_append.2 ⟨h.behind, forall_mem_singleton.2 (le_refl _)⟩
  ahead x hx := h.ahead x (mem_cons_of_mem _ hx)
  off_eq := by
    rw [bytesAt_append, length_append, bytesAt_cons, if_pos rfl, bytesAt_nil, append_nil, h.off_eq]

/-- More entries, further on. -/
theorem append (h : Divides before after id off) {more : List Entry} (hmore : ∀ e ∈ more, id ≤ e.1) :
    Divides before (after ++ more) id off where
  behind := h.behind
  ahead := forall_mem_append.2 ⟨h.ahead, hmore⟩
  off_eq := h.off_eq

end Divides

section Flush

variable (cfg : WalConfig) (fault : Fault) (l : DurableLog)

theorem lookup_written (s : ℕ) : l.written.disk.segments.lookup s =
    if s = l.activeId then some (l.disk.content l.activeId ++ l.buf) else l.disk.segments.lookup s :=
  lookup_insert_ite _ _ _ _

theorem lookup_created (s : ℕ) : l.created.disk.segments.lookup s =
    if s = l.activeId + 1 then some [] else l.disk.segments.lookup s :=
  lookup_insert_ite _ _ _ _

/-- **What a flush does.** -/
theorem flush_cases : (l.poisoned = true ∧ l.flush cfg fault = (l, .error .io)) ∨
    (l.poisoned = false ∧ l.buf = [] ∧ l.flush cfg fault = (l, .ok ())) ∨
    (l.poisoned = false ∧ l.buf ≠ [] ∧ fault = .sync ∧
      l.flush cfg fault = ({ l.written with poisoned := true }, .error .io)) ∨
    (l.poisoned = false ∧ l.buf ≠ [] ∧ l.flush cfg fault = (l.synced, .ok ())) ∨
    (l.poisoned = false ∧ l.buf ≠ [] ∧ fault = .entry ∧
      l.flush cfg fault = ({ l.synced.created with poisoned := true }, .error .io)) ∨
    (l.poisoned = false ∧ l.buf ≠ [] ∧ l.flush cfg fault = (l.synced.rolled, .ok ())) := by
  unfold DurableLog.flush DurableLog.rotate
  cases hp : l.poisoned with
  | true => exact .inl ⟨rfl, rfl⟩
  | false =>
    simp only [Bool.false_eq_true, if_false, false_and, false_or, true_and]
    split_ifs with h₁ h₂ h₃ h₄
    · exact .inl ⟨h₁, rfl⟩
    · exact .inr (.inl ⟨h₁, h₂, rfl⟩)
    · exact .inr (.inr (.inr (.inl ⟨h₁, h₄, rfl⟩)))
    · exact .inr (.inr (.inr (.inr ⟨h₁, rfl⟩)))
    · exact .inr (.inr (.inl ⟨h₁, rfl⟩))

/-- A flush moves no cursor and delivers nothing. -/
theorem cursor_flush : (l.flush cfg fault).1.readId = l.readId ∧ (l.flush cfg fault).1.readOff = l.readOff ∧
      (l.flush cfg fault).1.inflight = l.inflight ∧ (l.flush cfg fault).1.segInflight = l.segInflight := by
  rcases flush_cases cfg fault l with ⟨-, heq⟩ | ⟨-, -, heq⟩ | ⟨-, -, -, heq⟩ | ⟨-, -, heq⟩ | ⟨-, -, -, heq⟩ |
    ⟨-, -, heq⟩ <;> rw [heq] <;> exact ⟨rfl, rfl, rfl, rfl⟩

/-- A flush fails exactly when it leaves the log poisoned. -/
theorem flush_ok_iff (l : DurableLog) (cfg : WalConfig) (fault : Fault) :
    (l.flush cfg fault).2 = .ok () ↔ (l.flush cfg fault).1.poisoned = false := by
  rcases flush_cases cfg fault l with ⟨hp, heq⟩ | ⟨hp, -, heq⟩ | ⟨-, -, -, heq⟩ | ⟨hp, -, heq⟩ | ⟨-, -, -, heq⟩ |
    ⟨hp, -, heq⟩ <;> rw [heq]
  · simp [hp]
  · simp [hp]
  · simp
  · exact ⟨fun _ => hp, fun _ => rfl⟩
  · simp
  · exact ⟨fun _ => hp, fun _ => rfl⟩

/-- Without a fault a flush succeeds, and nothing is left unsure. -/
theorem flush_calm {l : DurableLog} (cfg : WalConfig) (hp : l.poisoned = false) :
    (l.flush cfg .none).1.poisoned = false ∧ (l.disk.entry = true → (l.flush cfg .none).1.disk.entry = true) := by
  rcases flush_cases cfg .none l with ⟨hbad, -⟩ | ⟨-, -, heq⟩ | ⟨-, -, hf, -⟩ | ⟨-, -, heq⟩ | ⟨-, -, hf, -⟩ |
    ⟨-, -, heq⟩
  · rw [hp] at hbad
    cases hbad
  · rw [heq]
    exact ⟨hp, fun he => he⟩
  · cases hf
  · rw [heq]
    exact ⟨hp, fun he => he⟩
  · cases hf
  · rw [heq]
    exact ⟨hp, fun _ => rfl⟩

end Flush

/-- The log with its cursor elsewhere. -/
def DurableLog.seek (l : DurableLog) (id off : ℕ) : DurableLog := { l with readId := id, readOff := off }

theorem DurableLog.seek_self {l : DurableLog} {id off : ℕ} (hid : id = l.readId) (hoff : off = l.readOff) :
    l.seek id off = l := by
  subst hid hoff
  rfl

/-- What `recv` depends on. -/
structure Reading (before after : List Entry) (pending : List Cofre) (l : DurableLog) : Prop where
  position : Divides before after l.readId l.readOff
  sorted : after.Pairwise fun x y => x.1 ≤ y.1
  fits : ∀ e ∈ after, FitsWire e.2
  range : ∀ e ∈ after, e.1 ≤ l.activeId
  within : l.readId ≤ l.activeId
  files : ∀ s, l.readId ≤ s → s ≤ l.activeId → l.disk.segments.lookup s = some (bytesAt (before ++ after) s)
  buf : l.buf = wire.frames (pending.map Cofre.encode)
  fitsBuf : ∀ c ∈ pending, FitsWire c
  ends : pending ≠ [] → l.poisoned = false ∧ l.writeOff = (bytesAt (before ++ after) l.activeId).length

namespace Reading

variable {cfg : WalConfig} {fault : Fault} {before after : List Entry} {pending : List Cofre} {l : DurableLog}

theorem buf_eq_nil (h : Reading before after pending l) : l.buf = [] ↔ pending = [] := by
  rw [h.buf]
  cases pending with
  | nil => simp
  | cons c pending =>
    simp only [map_cons, Codec.frames_cons, append_eq_nil_iff, reduceCtorEq, iff_false, not_and]
    exact fun hnil => absurd hnil (wire.frame_ne_nil _)

theorem next (h : Reading before after pending l) (hnone : ∀ e ∈ after, e.1 ≠ l.readId)
    (hlt : l.readId < l.activeId) : Reading before after pending l.nextSegment where
  position := h.position.next hnone
  sorted := h.sorted
  fits := h.fits
  range := h.range
  within := hlt
  files s hs := h.files s (Nat.le_of_succ_le hs)
  buf := h.buf
  fitsBuf := h.fitsBuf
  ends := h.ends

variable {e : Entry}

/-- Ahead of the cursor there is something, so that the buffer stays. -/
theorem flushAtEnd_cons (h : Reading before (e :: after) pending l) :
    l.flushAtEnd cfg fault = (l, .ok ()) := by
  refine if_neg ?_
  rintro ⟨hlast, hend, hbuf⟩
  obtain ⟨-, hoff⟩ := h.ends fun hnil => hbuf (h.buf_eq_nil.2 hnil)
  have hat : e.1 = l.activeId := by
    have := h.position.ahead e mem_cons_self
    have := h.range e mem_cons_self
    omega
  have hpos := length_pos_of_ne_nil (wire.frame_ne_nil e.2.encode)
  rw [bytesAt_append, length_append, bytesAt_cons, if_pos hat, length_append, ← hlast, ← h.position.off_eq] at hoff
  omega

/-- **`recv` returns the first entry ahead of the cursor.** -/
theorem recvLoop_cons (h : Reading before (e :: after) pending l) {fuel : ℕ} (hfuel : e.1 - l.readId < fuel) :
    l.recvLoop cfg fault fuel = ((l.seek e.1 (bytesAt before e.1).length).deliver e.2
      (wire.frame e.2.encode).length, .ok (some e.2)) := by
  induction fuel generalizing l with
  | zero => omega
  | succ fuel ih =>
    have hle := h.position.ahead e mem_cons_self
    simp only [recvLoop, h.flushAtEnd_cons, h.files l.readId (le_refl _) h.within, h.position.drop]
    by_cases hat : e.1 = l.readId
    · have hfits := h.fits e mem_cons_self
      have hseek : l.seek e.1 (bytesAt before e.1).length = l :=
        seek_self hat (by rw [hat, h.position.off_eq])
      rw [bytesAt_cons, if_pos hat, readFrame_of_parse (Codec.parse_frame (fits_encode hfits) _)]
      simp only [decode_encode hfits]
      rw [hseek]
    · have hnone : ∀ x ∈ e :: after, x.1 ≠ l.readId := by
        intro x hx
        rcases mem_cons.1 hx with rfl | hx
        · exact hat
        · have := (pairwise_cons.1 h.sorted).1 x hx
          omega
      have hlt : l.readId < l.activeId := by
        have := h.range e mem_cons_self
        omega
      rw [bytesAt_eq_nil hnone, readFrame_nil]
      simp only [if_pos hlt]
      have hstep := ih (h.next hnone hlt) (show e.1 - (l.readId + 1) < fuel by omega)
      rw [hstep]
      rfl

theorem recv_cons (h : Reading before (e :: after) pending l) :
    l.recv cfg fault = ((l.seek e.1 (bytesAt before e.1).length).deliver e.2
      (wire.frame e.2.encode).length, .ok (some e.2)) := by
  refine h.recvLoop_cons ?_
  have := h.range e mem_cons_self
  omega

/-- With nothing ahead the cursor goes to the end of the newest segment. -/
theorem seekEnd (h : Reading before [] pending l) :
    Reading before [] pending (l.seek l.activeId (bytesAt before l.activeId).length) where
  position := ⟨fun e he => (h.position.behind e he).trans h.within, nofun, rfl⟩
  sorted := h.sorted
  fits := h.fits
  range := h.range
  within := le_refl _
  files s hs := h.files s (h.within.trans hs)
  buf := h.buf
  fitsBuf := h.fitsBuf
  ends := h.ends

/-- The rounds of the loop that only move the cursor. -/
theorem recvLoop_end (cfg : WalConfig) (fault : Fault) (h : Reading before [] pending l) {fuel : ℕ}
    (hfuel : l.activeId - l.readId < fuel) :
    ∃ fuel', l.recvLoop cfg fault fuel =
      (l.seek l.activeId (bytesAt before l.activeId).length).recvLoop cfg fault (fuel' + 1) := by
  induction fuel generalizing l with
  | zero => omega
  | succ fuel ih =>
    rcases Nat.lt_or_ge l.readId l.activeId with hlt | hge
    · have hnone : ∀ e ∈ ([] : List Entry), e.1 ≠ l.readId := nofun
      obtain ⟨fuel', hfuel'⟩ := ih (h.next hnone hlt) (show l.activeId - (l.readId + 1) < fuel by omega)
      refine ⟨fuel', Eq.trans ?_ hfuel'⟩
      have hstay : l.flushAtEnd cfg fault = (l, .ok ()) := if_neg fun hc => by omega
      simp only [recvLoop, hstay, h.files l.readId (le_refl _) h.within, h.position.drop,
        bytesAt_nil, readFrame_nil, if_pos hlt]
    · have heq : l.readId = l.activeId := Nat.le_antisymm h.within hge
      refine ⟨fuel, ?_⟩
      rw [seek_self heq.symm (by rw [← heq, h.position.off_eq])]

/-- **At the end `recv` returns nothing.** -/
theorem recv_nil (h : Reading before [] [] l) :
    l.recv cfg fault = (l.seek l.activeId (bytesAt before l.activeId).length, .ok none) := by
  obtain ⟨fuel, hfuel⟩ := h.recvLoop_end cfg fault (show l.activeId - l.readId < l.activeId - l.readId + 2 by omega)
  rw [recv, hfuel]
  have hend := h.seekEnd
  have hstay : (l.seek l.activeId (bytesAt before l.activeId).length).flushAtEnd cfg fault =
      (l.seek l.activeId (bytesAt before l.activeId).length, .ok ()) := if_neg fun hc => hc.2.2 (hend.buf_eq_nil.2 rfl)
  simp only [recvLoop, hstay, hend.files _ (le_refl _) hend.within, hend.position.drop, bytesAt_nil, readFrame_nil]
  rw [if_neg]
  exact Nat.lt_irrefl l.activeId

/-- The entries that a flush writes. -/
def flushed (l : DurableLog) (pending : List Cofre) : List Entry := pending.map fun c => (l.activeId, c)

theorem mem_flushed (he : e ∈ flushed l pending) : e.1 = l.activeId ∧ e.2 ∈ pending := by
  obtain ⟨c, hc, rfl⟩ := mem_map.1 he
  exact ⟨rfl, hc⟩

/-- With the buffer written, it is ahead of the cursor. -/
theorem written (h : Reading before after pending l) : Reading before (after ++ flushed l pending) [] l.written where
  position := h.position.append fun e he => by rw [(mem_flushed he).1]; exact h.within
  sorted := by
    refine pairwise_append.2 ⟨h.sorted, ?_, fun x hx y hy => ?_⟩
    · exact pairwise_of_forall_mem_list fun x hx y hy => by rw [(mem_flushed hx).1, (mem_flushed hy).1]
    · rw [(mem_flushed hy).1]
      exact h.range x hx
  fits := forall_mem_append.2 ⟨h.fits, fun e he => h.fitsBuf e.2 (mem_flushed he).2⟩
  range := forall_mem_append.2 ⟨h.range, fun e he => (mem_flushed he).1.le⟩
  within := h.within
  files s hlow hhigh := by
    rw [lookup_written, ← append_assoc, bytesAt_append, flushed, bytesAt_tagged]
    split_ifs with h₁ h₂ h₂
    · rw [Disk.content, h.files _ h.within (le_refl _), h.buf, h₁]
      rfl
    · exact absurd h₁.symm h₂
    · exact absurd h₂.symm h₁
    · rw [append_nil, h.files s hlow hhigh]
  buf := rfl
  fitsBuf c hc := absurd hc not_mem_nil
  ends hne := absurd rfl hne

/-- A new segment changes nothing ahead of the cursor. -/
theorem created (h : Reading before after [] l) : Reading before after [] l.created where
  position := h.position
  sorted := h.sorted
  fits := h.fits
  range e he := (h.range e he).trans (Nat.le_succ _)
  within := h.within.trans (Nat.le_succ _)
  files s hlow hhigh := by
    rw [lookup_created]
    split_ifs with hs
    · rw [bytesAt_eq_nil]
      intro e he
      rcases mem_append.1 he with he | he
      · have := h.position.behind e he
        have := h.within
        omega
      · have := h.range e he
        omega
    · refine h.files s hlow ?_
      change s ≤ l.activeId + 1 at hhigh
      omega
  buf := h.buf
  fitsBuf := h.fitsBuf
  ends hne := absurd rfl hne

/-- The reader does not see what is in the segments behind it, nor anything of the bookkeeping. -/
theorem congr (h : Reading before after pending l) {l' : DurableLog} (hid : l'.readId = l.readId)
    (hoff : l'.readOff = l.readOff) (hactive : l'.activeId = l.activeId)
    (hsegments : ∀ s, l.readId ≤ s → l'.disk.segments.lookup s = l.disk.segments.lookup s) (hbuf : l'.buf = l.buf)
    (hends : pending ≠ [] → l'.poisoned = l.poisoned ∧ l'.writeOff = l.writeOff) : Reading before after pending l' where
  position := by rw [hid, hoff]; exact h.position
  sorted := h.sorted
  fits := h.fits
  range := by rw [hactive]; exact h.range
  within := by rw [hid, hactive]; exact h.within
  files s hlow hhigh := by rw [hid] at hlow; rw [hsegments s hlow, h.files s hlow (hactive ▸ hhigh)]
  buf := hbuf.trans h.buf
  fitsBuf := h.fitsBuf
  ends hne := by rw [(hends hne).1, (hends hne).2, hactive]; exact h.ends hne

/-- **A flush puts the buffer ahead of the cursor**, whether it succeeds or not. -/
theorem flush (h : Reading before after pending l) (cfg : WalConfig) (fault : Fault) :
    Reading before (after ++ flushed l pending) [] (l.flush cfg fault).1 := by
  have hsame (hnil : pending = []) : Reading before (after ++ flushed l pending) [] l := by
    subst hnil
    simpa [flushed] using h
  have hnone : ([] : List Cofre) ≠ [] → False := fun hne => hne rfl
  rcases flush_cases cfg fault l with ⟨hp, heq⟩ | ⟨-, hbuf, heq⟩ | ⟨-, -, -, heq⟩ | ⟨-, -, heq⟩ | ⟨-, -, -, heq⟩ |
    ⟨-, -, heq⟩ <;> rw [heq]
  · refine hsame (by_contra fun hne => ?_)
    rw [(h.ends hne).1] at hp
    cases hp
  · exact hsame (h.buf_eq_nil.1 hbuf)
  · exact h.written.congr rfl rfl rfl (fun _ _ => rfl) rfl (hnone · |>.elim)
  · exact h.written.congr rfl rfl rfl (fun _ _ => rfl) rfl (hnone · |>.elim)
  · exact h.written.created.congr rfl rfl rfl (fun _ _ => rfl) rfl (hnone · |>.elim)
  · exact h.written.created.congr rfl rfl rfl (fun _ _ => rfl) rfl (hnone · |>.elim)

/-- The first cofre of the buffer is ahead of a cursor at the end. -/
theorem flush_cons {c : Cofre} (h : Reading before [] (c :: pending) l) (cfg : WalConfig) (fault : Fault)
    (hid : l.readId = l.activeId) (hoff : l.readOff = (bytesAt before l.activeId).length) :
    Reading before ((l.activeId, c) :: flushed l pending) [] (l.flush cfg fault).1 ∧
      (l.flush cfg fault).1.seek l.activeId (bytesAt before l.activeId).length = (l.flush cfg fault).1 := by
  obtain ⟨hid', hoff', -⟩ := cursor_flush cfg fault l
  exact ⟨h.flush cfg fault, seek_self (by rw [hid', hid]) (by rw [hoff', hoff])⟩

/-- **With nothing ahead `recv` flushes the buffer.**  If that fails, `recv` does; otherwise it
returns the first cofre that was buffered. -/
theorem recv_flush {c : Cofre} (h : Reading before [] (c :: pending) l) (cfg : WalConfig) (fault : Fault) :
    let l' := l.seek l.activeId (bytesAt before l.activeId).length
    (∀ e, (l'.flush cfg fault).2 = .error e → l.recv cfg fault = ((l'.flush cfg fault).1, .error e)) ∧
      ((l'.flush cfg fault).2 = .ok () →
        l.recv cfg fault = ((l'.flush cfg fault).1.deliver c (wire.frame c.encode).length, .ok (some c))) := by
  intro l'
  have hend : Reading before [] (c :: pending) l' := h.seekEnd
  obtain ⟨hpoisoned, hoff⟩ := hend.ends (cons_ne_nil _ _)
  have hbuf : l'.buf ≠ [] := fun hnil => cons_ne_nil _ _ (hend.buf_eq_nil.1 hnil)
  obtain ⟨fuel, hfuel⟩ := h.recvLoop_end cfg fault (show l.activeId - l.readId < l.activeId - l.readId + 2 by omega)
  have hflush : l'.flushAtEnd cfg fault = l'.flush cfg fault := by
    refine if_pos ⟨rfl, ?_, hbuf⟩
    rw [hoff, append_nil]
    exact le_refl _
  rw [recv, hfuel]
  refine ⟨fun e he => ?_, fun hok => ?_⟩
  · rw [recvLoop, show seek l _ _ = l' from rfl, hflush,
      show l'.flush cfg fault = ((l'.flush cfg fault).1, .error e) from Prod.ext rfl he]
  · obtain ⟨hread, hseek⟩ := hend.flush_cons cfg fault rfl rfl
    have hloop : l'.recvLoop cfg fault (fuel + 1) = (l'.flush cfg fault).1.recvLoop cfg fault (fuel + 1) := by
      rw [recvLoop, hflush, recvLoop, hread.flushAtEnd_cons,
        show l'.flush cfg fault = ((l'.flush cfg fault).1, .ok ()) from Prod.ext rfl hok]
    rw [show seek l _ _ = l' from rfl, hloop, hread.recvLoop_cons ?_, hseek]
    rw [(cursor_flush cfg fault l').1]
    exact (Nat.sub_self l'.activeId).trans_lt fuel.succ_pos

/-- The cursor behind the entry that was delivered. -/
theorem deliver (h : Reading before (e :: after) pending l) :
    Reading (before ++ [e]) after pending ((l.seek e.1 (bytesAt before e.1).length).deliver e.2
      (wire.frame e.2.encode).length) := by
  have hbytes : (before ++ [e]) ++ after = before ++ e :: after := by rw [append_assoc, singleton_append]
  refine ⟨(h.position.seek h.sorted).step, (pairwise_cons.1 h.sorted).2,
    fun x hx => h.fits x (mem_cons_of_mem _ hx), fun x hx => h.range x (mem_cons_of_mem _ hx),
    h.range e mem_cons_self, fun s hlow hhigh => ?_, h.buf, h.fitsBuf, ?_⟩
  · rw [hbytes]
    exact h.files s ((h.position.ahead e mem_cons_self).trans hlow) hhigh
  · rw [hbytes]
    exact h.ends

/-- **What `recv` does**: it finds nothing, fails to flush the buffer, or delivers the first cofre. -/
theorem recv_cases (h : Reading before after pending l) (cfg : WalConfig) (fault : Fault) :
    (after = [] ∧ pending = [] ∧
      l.recv cfg fault = (l.seek l.activeId (bytesAt before l.activeId).length, .ok none)) ∨
    (∃ e, after = [] ∧ ((l.seek l.activeId (bytesAt before l.activeId).length).flush cfg fault).2 = .error e ∧
      l.recv cfg fault = (((l.seek l.activeId (bytesAt before l.activeId).length).flush cfg fault).1, .error e)) ∨
    ∃ l₁ e advance after' pending', l.recv cfg fault = (l₁.deliver e.2 advance, .ok (some e.2)) ∧
      Reading (before ++ [e]) after' pending' (l₁.deliver e.2 advance) ∧
      after.map Prod.snd ++ pending = e.2 :: (after'.map Prod.snd ++ pending') ∧
      (l₁ = l.seek e.1 (bytesAt before e.1).length ∨
        l₁ = ((l.seek l.activeId (bytesAt before l.activeId).length).flush cfg fault).1) := by
  cases after with
  | cons e after => exact .inr (.inr ⟨_, e, _, after, pending, h.recv_cons, h.deliver, rfl, .inl rfl⟩)
  | nil =>
    cases pending with
    | nil => exact .inl ⟨rfl, rfl, h.recv_nil⟩
    | cons c pending =>
      obtain ⟨hfail, hdeliver⟩ := h.recv_flush cfg fault
      obtain ⟨hread, hseek⟩ := h.seekEnd.flush_cons cfg fault rfl rfl
      cases hres : ((l.seek l.activeId (bytesAt before l.activeId).length).flush cfg fault).2 with
      | error e => exact .inr (.inl ⟨e, rfl, rfl, hfail e hres⟩)
      | ok u =>
        have hnext := hread.deliver
        rw [hseek] at hnext
        refine .inr (.inr ⟨_, (l.activeId, c), _, _, [], hdeliver hres, hnext, ?_, .inr rfl⟩)
        rw [append_nil, flushed, map_map]
        exact congrArg (c :: ·) (map_id _).symm

/-- When `recv` returns nothing, nothing is left. -/
theorem eq_nil_of_recv_none (h : Reading before after pending l) (hnone : (l.recv cfg fault).2 = .ok none) :
    after = [] ∧ pending = [] := by
  rcases h.recv_cases cfg fault with ⟨hafter, hpending, -⟩ | ⟨e, -, -, heq⟩ | ⟨l₁, e, advance, -, -, heq, -⟩
  · exact ⟨hafter, hpending⟩
  · rw [heq] at hnone
    cases hnone
  · rw [heq] at hnone
    cases hnone

end Reading

/-- Calling `recv` until it returns nothing returns these cofres. -/
def Drains (cfg : WalConfig) (l : DurableLog) (cofres : List Cofre) : Prop :=
  ((machine cfg).trace l (replicate (cofres.length + 1) (.call .recv .none))).map (fun e => e.2.result) =
    cofres.map (fun c => some (.received (some c))) ++ [some (.received none)]

theorem drains_cons {cfg : WalConfig} {l l' : DurableLog} {c : Cofre} {cofres : List Cofre}
    (hrecv : l.recv cfg .none = (l', .ok (some c))) (h : Drains cfg l' cofres) : Drains cfg l (c :: cofres) := by
  have hcall : l.call cfg .none .recv = (l', .received (some c)) := by
    simp only [call, hrecv]
  unfold Drains at h ⊢
  rw [length_cons, replicate_succ, Machine.trace_cons, map_cons, map_cons, cons_append]
  simp only [machine, hcall] at h ⊢
  rw [h]

/-- **All that is ahead of the cursor comes out, in order, and then what is in the buffer.** -/
theorem Reading.drains (cfg : WalConfig) {before after : List Entry} {pending : List Cofre} {l : DurableLog}
    (h : Reading before after pending l) : Drains cfg l (after.map Prod.snd ++ pending) := by
  generalize hcofres : after.map Prod.snd ++ pending = cofres
  induction cofres generalizing before after pending l with
  | nil =>
    obtain ⟨hafter, rfl⟩ := append_eq_nil_iff.1 hcofres
    obtain rfl := map_eq_nil_iff.1 hafter
    have hcall : (l.call cfg .none .recv).2 = .received none := by
      simp only [call, h.recv_nil]
    unfold Drains
    simp only [map_nil, length_nil, nil_append, Nat.zero_add, replicate_one,
      Machine.trace_cons, Machine.trace_nil, map_cons, machine, hcall]
  | cons c cofres ih =>
    rcases h.recv_cases cfg .none with ⟨rfl, rfl, -⟩ | ⟨e, rfl, hfail, -⟩ |
      ⟨l₁, e, advance, after', pending', hrecv, hnext, heq, -⟩
    · cases hcofres
    · -- without a fault the flush succeeds
      have hpending : pending ≠ [] := fun hnil => by rw [hnil] at hcofres; cases hcofres
      rw [(flush_ok_iff _ cfg .none).2 (flush_calm cfg (h.seekEnd.ends hpending).1).1] at hfail
      cases hfail
    · obtain ⟨rfl, rfl⟩ := cons.inj (hcofres.symm.trans heq)
      exact drains_cons hrecv (ih hnext rfl)

end Datarail.Wal
