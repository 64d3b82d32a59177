/-
# The shared-memory ring is a bounded queue

What has been accepted is one byte stream, the frames of the cofres one after the other.  Both cursors are
positions in it, at the end of the frames that were accepted and of those that were delivered, and the cells
between them hold it (`Shared`).  The producer copies into the cells behind its own cursor and within one
capacity of the consumer's, so it never touches these; a value of the consumer's cursor that it loaded earlier
is only smaller.  The consumer copies out of them; a value of the producer's cursor that it loaded earlier is
still the end of a frame, so the frame it finds is there as a whole.
-/

import Datarail.Substrate.Shmem
import Mathlib.Data.Finset.Card

namespace Datarail.Substrate
namespace Shmem

open Lib List Option Nat Answer

variable {capacity : ℕ} {m m' : Mapping} {acc acc' del : List Cofre}

/-- The frames of cofres, one after the other. -/
def stream (cofres : List Cofre) : Bytes := cofres.flatMap frame

@[simp] theorem stream_append (a b : List Cofre) : stream (a ++ b) = stream a ++ stream b := flatMap_append

@[simp] theorem stream_singleton (c : Cofre) : stream [c] = frame c := flatMap_singleton ..

theorem length_stream_le {a b : List Cofre} (h : a <+: b) : (stream a).length ≤ (stream b).length := by
  obtain ⟨rest, rfl⟩ := h
  rw [stream_append, length_append]
  omega

/-- A prefix of what was accepted that goes beyond what was delivered holds the next cofre. -/
theorem exists_next {a b : List Cofre} (h : a <+: b) (hlt : (stream a).length < (stream b).length) :
    ∃ c, a ++ [c] <+: b := by
  obtain ⟨_ | ⟨c, rest⟩, rfl⟩ := h
  · rw [append_nil] at hlt
    omega
  · exact ⟨c, rest, by rw [append_assoc]; rfl⟩

/-! ### What holds in every state -/

/-- A cofre that `send` has checked. -/
def Checked (capacity : ℕ) (c : Cofre) : Prop := Carried c ∧ (frame c).length ≤ capacity

/-- The mapping between the accepted and the delivered cofres. -/
structure Shared (capacity : ℕ) (m : Mapping) (acc del : List Cofre) : Prop where
  size : m.cells.length = capacity
  checked : ∀ c ∈ acc, Checked capacity c
  order : del <+: acc
  write : m.write = (stream acc).length
  read : m.read = (stream del).length
  window : m.write ≤ m.read + capacity
  holds : Ring.Holds m.cells capacity m.read m.write (stream acc)

/-- The producer's side. -/
def ProducerInv (capacity : ℕ) (m : Mapping) : Producer → Prop
  | .idle => True
  | .called c => Checked capacity c
  | .loaded c read => Checked capacity c ∧ read ≤ m.read ∧ m.write ≤ read + capacity
  | .copying c write nextWrite copied => Checked capacity c ∧ write = m.write ∧
      nextWrite = m.write + (frame c).length ∧ nextWrite ≤ m.read + capacity ∧
      ∀ i ∈ copied, i < (frame c).length → m.cells[(m.write + i) % capacity]? = (frame c)[i]?

/-- The bytes `recv` copies: the length of the next frame, or its cofre. -/
def wanted (c : Cofre) : Option ℕ → Bytes
  | none => leBytes 4 c.encode.length
  | some _ => c.encode

/-- The consumer's side. -/
def ConsumerInv (m : Mapping) (acc del : List Cofre) : Consumer → Prop
  | .idle => True
  | .called => True
  | .loaded write => ∃ seen, del <+: seen ∧ seen <+: acc ∧ write = (stream seen).length
  | .copying write read len dst copied => ∃ c, del ++ [c] <+: acc ∧ read = m.read ∧
      read + (frame c).length ≤ write ∧ (∀ n, len = some n → n = c.encode.length) ∧
      dst.length = (wanted c len).length ∧ ∀ i ∈ copied, dst[i]? = (wanted c len)[i]?

theorem ProducerInv.mono {p : Producer} (h : ProducerInv capacity m p) (hcells : m'.cells = m.cells)
    (hwrite : m'.write = m.write) (hread : m.read ≤ m'.read) : ProducerInv capacity m' p := by
  cases p with
  | idle => trivial
  | called c => exact h
  | loaded c read =>
    obtain ⟨hchecked, hle, hwindow⟩ := h
    exact ⟨hchecked, hle.trans hread, hwrite ▸ hwindow⟩
  | copying c write nextWrite copied =>
    obtain ⟨hchecked, hw, hnext, hwindow, hcopied⟩ := h
    refine ⟨hchecked, hw.trans hwrite.symm, hwrite ▸ hnext, by omega, ?_⟩
    rw [hcells, hwrite]
    exact hcopied

theorem ConsumerInv.mono {p : Consumer} (h : ConsumerInv m acc del p) (hread : m'.read = m.read)
    (hacc : acc <+: acc') : ConsumerInv m' acc' del p := by
  cases p with
  | idle => trivial
  | called => trivial
  | loaded write =>
    obtain ⟨seen, hdel, hseen, hwrite⟩ := h
    exact ⟨seen, hdel, hseen.trans hacc, hwrite⟩
  | copying write read len dst copied =>
    obtain ⟨c, hc, hr, hrest⟩ := h
    exact ⟨c, hc.trans hacc, hr.trans hread.symm, hrest⟩

/-- The consumer has seen all that the producer has published. -/
def Fresh (s : State) : Prop :=
  match s.consumer with
  | .idle => True
  | .called => True
  | .loaded write => write = s.map.write
  | .copying write _ _ _ _ => write = s.map.write

/-! ### The producer -/

section

variable {s : State} (hs : Shared capacity s.map acc del)

include hs

variable {copied : List ℕ} {c : Cofre}

/-- The producer copies a byte. -/
theorem Shared.copy {nextWrite i : ℕ} {byte : UInt8}
    (hp : ProducerInv capacity s.map (.copying c s.map.write nextWrite copied)) (hbyte : (frame c)[i]? = some byte) :
    Shared capacity { s.map with cells := s.map.cells.set (Ring.slot capacity s.map.write (frame c).length i) byte }
        acc del ∧
      ProducerInv capacity
        { s.map with cells := s.map.cells.set (Ring.slot capacity s.map.write (frame c).length i) byte }
        (.copying c s.map.write nextWrite (i :: copied)) := by
  obtain ⟨hchecked, -, hnext, hwindow, hcopied⟩ := hp
  have hi : i < (frame c).length := (List.getElem?_eq_some_iff.1 hbyte).1
  have hcap := hchecked.2
  rw [Ring.slot_eq hi hcap]
  refine ⟨{ hs with
    size := by rw [length_set, hs.size]
    holds := hs.holds.set (by omega) (by omega) byte }, hchecked, rfl, hnext, hwindow, ?_⟩
  intro j hj hlt
  by_cases hij : j = i
  · subst hij
    rw [getElem?_set_self (by rw [hs.size]; exact mod_lt _ (by omega)), hbyte]
  · have hne : (s.map.write + i) % capacity ≠ (s.map.write + j) % capacity := by
      rcases lt_or_gt_of_ne hij with hlt' | hlt'
      · exact (Ring.mod_ne_mod (by omega) (by omega)).symm
      · exact Ring.mod_ne_mod (by omega) (by omega)
    rw [getElem?_set_ne hne]
    exact hcopied j ((mem_cons.1 hj).resolve_left hij) hlt

/-- The producer publishes its cursor. -/
theorem Shared.publish {nextWrite : ℕ} (hp : ProducerInv capacity s.map (.copying c s.map.write nextWrite copied))
    (hcomplete : Complete (frame c).length copied) :
    Shared capacity { s.map with write := nextWrite } (acc ++ [c]) del := by
  obtain ⟨hchecked, -, hnext, hwindow, hcopied⟩ := hp
  have hlen : (stream (acc ++ [c])).length = nextWrite := by
    rw [stream_append, stream_singleton, length_append, ← hs.write, hnext]
  refine ⟨hs.size, forall_mem_append.2 ⟨hs.checked, forall_mem_singleton.2 hchecked⟩,
    hs.order.trans (prefix_append _ _), hlen.symm, hs.read, hwindow, ?_⟩
  have hholds := hs.holds
  rw [hs.write] at hholds
  have hall := hholds.append (frame c) fun i hi => by
    rw [← hs.write]
    exact hcopied i (hcomplete i hi) hi
  rw [← hlen, stream_append, stream_singleton]
  exact hall

omit hs in
/-- With cursors of one ring, the frame does not fit, the machine word does not suffice, or there is room. -/
theorem reserve_eq {write read total : ℕ} (hle : read ≤ write) (hwindow : write ≤ read + capacity) :
    reserve capacity write read total = if capacity - (write - read) < total then .error ringFull
      else if 2 ^ 64 ≤ write + total then .error ⟨.invalidData, "corrupt shmem ring cursor (write overflow)"⟩
      else .ok (write + total) := by
  rw [reserve, if_neg (by omega), if_neg (by omega)]

omit hs in
theorem Shared.read_le_write (hs : Shared capacity m acc del) : m.read ≤ m.write := by
  rw [hs.read, hs.write]
  exact length_stream_le hs.order

/-- **What a step of the producer comes to**: `send` goes on, fails, or has published the frame. -/
theorem Shared.stepProducer (hp : ProducerInv capacity s.map s.producer) (i : ℕ) :
    (∃ cells p, Shmem.stepProducer capacity i s = (⟨{ s.map with cells }, p, s.consumer⟩, none) ∧
      Shared capacity { s.map with cells } acc del ∧ ProducerInv capacity { s.map with cells } p) ∨
    (∃ c e, Shmem.stepProducer capacity i s = (⟨s.map, .idle, s.consumer⟩, some (.sent c (.error e)))) ∨
    ∃ c write, Shmem.stepProducer capacity i s =
        (⟨{ s.map with write }, .idle, s.consumer⟩, some (.sent c (.ok ()))) ∧
      Shared capacity { s.map with write } (acc ++ [c]) del := by
  have hstay : ∃ cells p, (s, (none : Option Answer)) = (⟨{ s.map with cells }, p, s.consumer⟩, none) ∧
      Shared capacity { s.map with cells } acc del ∧ ProducerInv capacity { s.map with cells } p :=
    ⟨s.map.cells, s.producer, rfl, hs, hp⟩
  unfold Shmem.stepProducer
  cases hphase : s.producer with
  | idle => exact .inl hstay
  | called c =>
    rw [hphase] at hp
    exact .inl ⟨_, _, rfl, hs, hp, le_refl _, hs.window⟩
  | loaded c read =>
    rw [hphase] at hp
    obtain ⟨hchecked, hle, hwindow⟩ := hp
    have hread := hs.read_le_write
    simp only [reserve_eq (le_trans hle hread) hwindow, ← length_frame]
    split_ifs with hfull hword
    · exact .inr (.inl ⟨_, _, rfl⟩)
    · exact .inr (.inl ⟨_, _, rfl⟩)
    · exact .inl ⟨_, _, rfl, hs, hchecked, rfl, rfl, by dsimp only; omega, nofun⟩
  | copying c write nextWrite copied =>
    rw [hphase] at hp
    obtain rfl : write = s.map.write := hp.2.1
    simp only
    split_ifs with hcomplete
    · exact .inr (.inr ⟨c, _, rfl, hs.publish hp hcomplete⟩)
    · cases hbyte : (frame c)[i]? with
      | none => exact .inl hstay
      | some byte => exact .inl ⟨_, _, rfl, hs.copy hp hbyte⟩

/-! ### The consumer -/

omit hs in
theorem length_wanted_le (c : Cofre) (len : Option ℕ) : source 0 len + (wanted c len).length ≤ (frame c).length := by
  cases len <;> simp [source, wanted, length_frame]

omit hs in
theorem getElem?_frame (c : Cofre) (len : Option ℕ) {i : ℕ} (hi : i < (wanted c len).length) :
    (frame c)[source 0 len + i]? = (wanted c len)[i]? := by
  cases len with
  | none =>
    have hi' : i < (leBytes 4 c.encode.length).length := hi
    rw [frame, source, zero_add, getElem?_append_left hi']
    rfl
  | some n =>
    have h4 : (leBytes 4 c.encode.length).length = 4 := length_leBytes _ _
    rw [frame, source, Nat.zero_add, getElem?_append_right (by omega), h4, Nat.add_sub_cancel_left]
    rfl

/-- The bytes of the next frame are in their cells. -/
theorem Shared.getElem?_cells (hc : del ++ [c] <+: acc) (len : Option ℕ) {i : ℕ} (hi : i < (wanted c len).length) :
    s.map.cells[Ring.slot capacity (source s.map.read len) (wanted c len).length i]? = (wanted c len)[i]? := by
  have hsource : source s.map.read len = s.map.read + source 0 len := by cases len <;> simp [source]
  have hle := length_wanted_le c len
  have hcap : (frame c).length ≤ capacity := by
    obtain ⟨rest, rfl⟩ := hc
    exact (hs.checked c (by simp)).2
  have hwrite := length_stream_le hc
  rw [stream_append, stream_singleton, length_append, ← hs.read, ← hs.write] at hwrite
  rw [Ring.slot_eq hi (by omega), hsource, hs.holds _ (by omega) (by omega), ← getElem?_frame c len hi]
  obtain ⟨rest, rfl⟩ := hc
  rw [stream_append, stream_append, stream_singleton, append_assoc, add_assoc, hs.read,
    getElem?_append_right (Nat.le_add_right _ _), Nat.add_sub_cancel_left,
    getElem?_append_left (by omega)]

omit hs in
/-- A buffer whose bytes have all been copied. -/
theorem eq_of_complete {dst bytes : Bytes} (hlen : dst.length = bytes.length)
    (hcopied : ∀ i ∈ copied, dst[i]? = bytes[i]?) (hcomplete : Complete dst.length copied) : dst = bytes := by
  refine ext_getElem? fun i => ?_
  by_cases hi : i < dst.length
  · exact hcopied i (hcomplete i hi)
  · rw [getElem?_eq_none (by omega), getElem?_eq_none (by omega)]

/-- The consumer publishes its cursor. -/
theorem Shared.release (hc : del ++ [c] <+: acc) :
    Shared capacity { s.map with read := s.map.read + (frame c).length } acc (del ++ [c]) := by
  have hread : s.map.read + (frame c).length = (stream (del ++ [c])).length := by
    rw [stream_append, stream_singleton, length_append, hs.read]
  have hwindow := hs.window
  exact ⟨hs.size, hs.checked, hc, hs.write, hread, by dsimp only; omega, fun p hp => hs.holds p (by dsimp only at hp; omega)⟩

/-- `recv` copies a byte. -/
theorem Shared.fetch {write read i : ℕ} {len : Option ℕ} {dst : Bytes}
    (hp : ConsumerInv s.map acc del (.copying write read len dst copied)) (hi : i < dst.length) :
    ConsumerInv s.map acc del (.copying write read len
      (dst.set i (s.map.cells.getD (Ring.slot capacity (source read len) dst.length i) 0)) (i :: copied)) := by
  obtain ⟨c, hc, rfl, hfits, hsome, hlen, hcopied⟩ := hp
  rw [hlen] at hi
  have hbyte := hs.getElem?_cells hc len hi
  refine ⟨c, hc, rfl, hfits, hsome, by rw [length_set, hlen], fun j hj => ?_⟩
  by_cases hij : j = i
  · subst hij
    rw [getElem?_set_self (by omega), hlen, getD_eq_getElem?_getD, hbyte, getElem?_eq_getElem hi, getD_some]
  · rw [getElem?_set_ne (Ne.symm hij)]
    exact hcopied j ((mem_cons.1 hj).resolve_left hij)

omit hs in
/-- `recv` has the length of a frame that is there. -/
theorem completeRecv_wanted {write read : ℕ} (hchecked : Checked capacity c)
    (hfits : read + (frame c).length ≤ write) :
    completeRecv capacity s write read (wanted c none) none = (⟨s.map, s.producer,
      .copying write read (some c.encode.length) (replicate c.encode.length 0) []⟩, none) := by
  have hcap := hchecked.2
  rw [length_frame] at hfits hcap
  have hlen : leNat (wanted c none) = c.encode.length :=
    leNat_leBytes_of_lt (Nat.lt_of_le_of_lt hchecked.1 (by decide))
  have hcheck : checkLen capacity (write - read) c.encode.length = .ok true := by
    rw [checkLen, if_neg (not_lt.2 hchecked.1), if_neg (by omega), decide_eq_true (by omega)]
  simp only [completeRecv, hlen, hcheck]

/-- **What a step of the consumer comes to**: `recv` goes on, finds nothing, or returns the next cofre. -/
theorem Shared.stepConsumer (hp : ConsumerInv s.map acc del s.consumer) (i : ℕ) :
    (∃ p, Shmem.stepConsumer capacity i s = (⟨s.map, s.producer, p⟩, none) ∧ ConsumerInv s.map acc del p ∧
      (Fresh s → Fresh ⟨s.map, s.producer, p⟩)) ∨
    (Shmem.stepConsumer capacity i s = (⟨s.map, s.producer, .idle⟩, some (.received (.ok none))) ∧
      (Fresh s → del = acc)) ∨
    ∃ c, del ++ [c] <+: acc ∧ Shmem.stepConsumer capacity i s =
      (⟨{ s.map with read := s.map.read + (frame c).length }, s.producer, .idle⟩, some (.received (.ok (some c)))) := by
  have hstay : ∃ p, (s, (none : Option Answer)) = (⟨s.map, s.producer, p⟩, none) ∧ ConsumerInv s.map acc del p ∧
      (Fresh s → Fresh ⟨s.map, s.producer, p⟩) := ⟨s.consumer, rfl, hp, id⟩
  unfold Shmem.stepConsumer
  cases hphase : s.consumer with
  | idle => exact .inl hstay
  | called => exact .inl ⟨_, rfl, ⟨acc, hs.order, prefix_refl acc, hs.write⟩, fun _ => rfl⟩
  | loaded write =>
    rw [hphase] at hp
    obtain ⟨seen, hdel, hseen, rfl⟩ := hp
    have hle := length_stream_le hdel
    simp only [if_neg (show ¬ (stream seen).length < s.map.read by rw [hs.read]; omega)]
    split_ifs with hshort
    · refine .inr (.inl ⟨rfl, fun hfresh => ?_⟩)
      -- less than a length is left, so no frame is
      rw [Fresh, hphase] at hfresh
      by_contra hne
      obtain ⟨_ | ⟨c, rest⟩, hrest⟩ := hs.order
      · exact hne (by rw [← hrest, append_nil])
      · have hpos := frame_pos c
        have hwrite := hs.write
        rw [← hrest, stream_append, length_append, ← hs.read, ← singleton_append (x := c), stream_append,
          stream_singleton, length_append] at hwrite
        omega
    · -- a whole frame is there, since a cursor stands at the end of one
      rw [hs.read] at hshort
      obtain ⟨c, hc⟩ := exists_next hdel (by omega)
      have hfits := length_stream_le hc
      rw [stream_append, stream_singleton, length_append, ← hs.read] at hfits
      refine .inl ⟨_, rfl, ⟨c, hc.trans hseen, rfl, hfits, nofun, by simp [wanted], nofun⟩, fun hfresh => ?_⟩
      rwa [Fresh, hphase] at hfresh
  | copying write read len dst copied =>
    rw [hphase] at hp
    simp only
    split_ifs with hcomplete hi
    · obtain ⟨c, hc, rfl, hfits, hsome, hlen, hcopied⟩ := hp
      obtain rfl := eq_of_complete hlen hcopied hcomplete
      have hchecked : Checked capacity c := by
        obtain ⟨rest, rfl⟩ := hc
        exact hs.checked c (by simp)
      cases len with
      | none =>
        rw [completeRecv_wanted hchecked hfits]
        refine .inl ⟨_, rfl, ⟨c, hc, rfl, hfits, fun n hn => (some.inj hn).symm, by simp [wanted], nofun⟩, fun hfresh => ?_⟩
        rwa [Fresh, hphase] at hfresh
      | some n =>
        obtain rfl := hsome n rfl
        simp only [completeRecv, wanted, hchecked.1.decode, ← length_frame]
        exact .inr (.inr ⟨c, hc, rfl⟩)
    · refine .inl ⟨_, rfl, hs.fetch hp hi, fun hfresh => ?_⟩
      rwa [Fresh, hphase] at hfresh
    · exact .inl hstay

end

/-! ### Every run -/

/-- The invariant: the mapping, both sides, and no error from `recv` so far. -/
structure Inv (capacity : ℕ) (h : List (Event × Option Answer)) (s : State) : Prop where
  shared : Shared capacity s.map (accepted h) (delivered h)
  producer : ProducerInv capacity s.map s.producer
  consumer : ConsumerInv s.map (accepted h) (delivered h) s.consumer
  clean : ∀ x ∈ h, ∀ e, x.2 ≠ some (.received (.error e))

variable {h : List (Event × Option Answer)} {a : Option Answer}

theorem clean_concat (hclean : ∀ x ∈ h, ∀ e, x.2 ≠ some (.received (.error e)))
    (e : Event) (ha : ∀ e, a ≠ some (.received (.error e))) :
    ∀ x ∈ h ++ [(e, a)], ∀ e, x.2 ≠ some (.received (.error e)) :=
  forall_mem_append.2 ⟨hclean, forall_mem_singleton.2 ha⟩

theorem checkFrame_eq_ok {c : Cofre} (h : checkFrame capacity c = .ok ()) : Checked capacity c := by
  unfold checkFrame at h
  split_ifs at h with hmax hword hcap
  exact ⟨not_lt.1 hmax, by rw [length_frame]; omega⟩

variable {s : State}

/-- A step that keeps the mapping and neither accepts nor delivers. -/
theorem Inv.quiet (hinv : Inv capacity h s) (e : Event)
    (haccepted : a.bind Answer.accepted = none) (hdelivered : a.bind Answer.delivered = none)
    (ha : ∀ e, a ≠ some (.received (.error e))) {p : Producer} {c : Consumer} (hp : ProducerInv capacity s.map p)
    (hc : ConsumerInv s.map (accepted h) (delivered h) c) : Inv capacity (h ++ [(e, a)]) ⟨s.map, p, c⟩ := by
  refine ⟨?_, hp, ?_, clean_concat hinv.clean e ha⟩ <;>
    rw [accepted_concat, delivered_concat, haccepted, hdelivered, toList_none, append_nil, append_nil]
  · exact hinv.shared
  · exact hc

/-- One step. -/
theorem Inv.step (hinv : Inv capacity h s) (e : Event) :
    Inv capacity (h ++ [(e, ((machine capacity).step s e).2)]) ((machine capacity).step s e).1 := by
  have hstay : Inv capacity (h ++ [(e, none)]) s := hinv.quiet e rfl rfl (by simp) hinv.producer hinv.consumer
  cases e with
  | send cofre =>
    cases hphase : s.producer with
    | idle =>
      cases hcheck : checkFrame capacity cofre with
      | error error =>
        simp only [machine, hphase, hcheck]
        exact hinv.quiet _ rfl rfl (by simp) hinv.producer hinv.consumer
      | ok _ =>
        simp only [machine, hphase, hcheck]
        exact hinv.quiet _ rfl rfl (by simp) (checkFrame_eq_ok hcheck) hinv.consumer
    | _ =>
      simp only [machine, hphase]
      exact hstay
  | producer i =>
    rcases hinv.shared.stepProducer hinv.producer i with ⟨cells, p, heq, hshared, hp⟩ | ⟨c, e, heq⟩ |
      ⟨c, write, heq, hshared⟩ <;> simp only [machine, heq]
    · refine ⟨?_, hp, ?_, clean_concat hinv.clean _ (by simp)⟩ <;>
        simp only [accepted_concat, delivered_concat, bind_none, toList_none, append_nil]
      · exact hshared
      · exact hinv.consumer.mono rfl (prefix_refl _)
    · exact hinv.quiet _ rfl rfl (by simp) trivial hinv.consumer
    · refine ⟨?_, trivial, ?_, clean_concat hinv.clean _ (by simp)⟩ <;>
        simp only [accepted_concat, delivered_concat, bind_some, Answer.accepted, Answer.delivered, toList_some,
          toList_none, append_nil]
      · exact hshared
      · exact hinv.consumer.mono rfl (prefix_append _ [c])
  | recv =>
    cases hphase : s.consumer with
    | idle =>
      simp only [machine, hphase]
      exact hinv.quiet _ rfl rfl (by simp) hinv.producer trivial
    | _ =>
      simp only [machine, hphase]
      exact hstay
  | consumer i =>
    rcases hinv.shared.stepConsumer hinv.consumer i with ⟨p, heq, hp, -⟩ | ⟨heq, -⟩ | ⟨c, hc, heq⟩ <;>
      simp only [machine, heq]
    · exact hinv.quiet _ rfl rfl (by simp) hinv.producer hp
    · exact hinv.quiet _ rfl rfl (by simp) hinv.producer trivial
    · refine ⟨?_, hinv.producer.mono rfl rfl (le_add_right _ _), trivial, clean_concat hinv.clean _ (by simp)⟩
      simpa [accepted_concat, delivered_concat, Answer.accepted, Answer.delivered] using hinv.shared.release hc

theorem inv_initial (capacity : ℕ) : Inv capacity [] (initial capacity) := by
  refine ⟨⟨length_replicate, nofun, prefix_refl _, rfl, rfl,
    zero_le _, fun p _ hp => absurd hp (not_lt_zero p)⟩, trivial, trivial, nofun⟩

/-- **Every run.** -/
theorem Inv.run (hinv : Inv capacity h s) (events : List Event) :
    Inv capacity (h ++ (machine capacity).trace s events) ((machine capacity).final s events) :=
  (machine capacity).invariant_of_step (fun _ _ => True) (Inv capacity) (fun _ _ e _ hs => hs.step e) s events h
    ((machine capacity).guarded_true s events) hinv

/-! ### The producer has stopped -/

/-- A call of `recv` or a step of one. -/
def Event.OfConsumer : Event → Prop
  | .recv => True
  | .consumer _ => True
  | _ => False

section

variable {h : List (Event × Option Answer)} {s : State} (hinv : Inv capacity h s)

include hinv

/-- What the consumer leaves alone. -/
theorem Inv.step_of_consumer {e : Event} (he : e.OfConsumer) : ((machine capacity).step s e).1.producer = s.producer ∧
      ((machine capacity).step s e).1.map.write = s.map.write ∧
      ((machine capacity).step s e).2.bind Answer.accepted = none := by
  cases e with
  | send _ => exact he.elim
  | producer _ => exact he.elim
  | recv =>
    simp only [machine]
    cases s.consumer <;> simp
  | consumer i =>
    rcases hinv.shared.stepConsumer hinv.consumer i with ⟨p, heq, -⟩ | ⟨heq, -⟩ | ⟨c, -, heq⟩ <;>
      simp [machine, heq, Answer.accepted]

variable {events : List Event}

/-- While only the consumer goes on, nothing is accepted. -/
theorem Inv.run_of_consumer (hevents : ∀ e ∈ events, e.OfConsumer) :
    ((machine capacity).final s events).producer = s.producer ∧
      ((machine capacity).final s events).map.write = s.map.write ∧
      accepted (h ++ (machine capacity).trace s events) = accepted h := by
  induction events generalizing h s with
  | nil => simp
  | cons e events ih =>
    obtain ⟨hproducer, hwrite, hnone⟩ := hinv.step_of_consumer (hevents e mem_cons_self)
    obtain ⟨hproducer', hwrite', haccepted⟩ := ih (hinv.step e) fun e he => hevents e (mem_cons_of_mem _ he)
    refine ⟨hproducer'.trans hproducer, hwrite'.trans hwrite, ?_⟩
    rw [accepted_concat, hnone, toList_none, append_nil, append_assoc] at haccepted
    exact haccepted

/-- A frame that `recv` is copying is there. -/
theorem Inv.copying {write read : ℕ} {len : Option ℕ} {dst : Bytes} {copied : List ℕ}
    (hphase : s.consumer = .copying write read len dst copied) (hcomplete : Complete dst.length copied) :
    ∃ c, Checked capacity c ∧ dst = wanted c len ∧ read + (frame c).length ≤ write ∧
      ∀ n, len = some n → n = c.encode.length := by
  have hconsumer := hinv.consumer
  rw [hphase] at hconsumer
  obtain ⟨c, hc, -, hfits, hsome, hlen, hcopied⟩ := hconsumer
  obtain ⟨rest, hrest⟩ := hc
  exact ⟨c, hinv.shared.checked c (by rw [← hrest]; simp), eq_of_complete hlen hcopied hcomplete, hfits, hsome⟩

/-- While only the consumer goes on, it sees all that is published. -/
theorem Inv.fresh_step (hfresh : Fresh s) {e : Event} (he : e.OfConsumer) : Fresh ((machine capacity).step s e).1 := by
  cases e with
  | send _ => exact he.elim
  | producer _ => exact he.elim
  | recv =>
    cases hphase : s.consumer with
    | idle =>
      simp only [machine, hphase]
      trivial
    | _ =>
      simp only [machine, hphase]
      exact hfresh
  | consumer i =>
    rcases hinv.shared.stepConsumer hinv.consumer i with ⟨p, heq, -, hp⟩ | ⟨heq, -⟩ | ⟨c, -, heq⟩ <;>
      simp only [machine, heq]
    · exact hp hfresh
    · trivial
    · trivial

theorem Inv.fresh_run (hfresh : Fresh s) (hevents : ∀ e ∈ events, e.OfConsumer) :
    Fresh ((machine capacity).final s events) := by
  induction events generalizing h s with
  | nil => exact hfresh
  | cons e events ih =>
    exact ih (hinv.step e) (hinv.fresh_step hfresh (hevents e mem_cons_self))
      fun e he => hevents e (mem_cons_of_mem _ he)

/-- **`recv` finds nothing only when everything has been delivered.** -/
theorem Inv.delivered_of_none (hfresh : Fresh s) {i : ℕ}
    (hnone : (stepConsumer capacity i s).2 = some (.received (.ok none))) : delivered h = accepted h := by
  rcases hinv.shared.stepConsumer hinv.consumer i with ⟨p, heq, -⟩ | ⟨-, hall⟩ | ⟨c, -, heq⟩
  · rw [heq] at hnone
    cases hnone
  · exact hall hfresh
  · rw [heq] at hnone
    cases hnone

end

/-! ### `recv` returns -/

/-- How far `recv` still has to go: where it stands, and how many bytes are missing. -/
def rank : Consumer → ℕ × ℕ
  | .idle => (4, 0)
  | .called => (3, 0)
  | .loaded _ => (2, 0)
  | .copying _ _ len dst copied => (len.elim 1 fun _ => 0, ((Finset.range dst.length).filter (· ∉ copied)).card)

theorem card_missing_lt {n i : ℕ} {copied : List ℕ} (hi : i < n) (hnew : i ∉ copied) :
    ((Finset.range n).filter (· ∉ i :: copied)).card < ((Finset.range n).filter (· ∉ copied)).card := by
  refine Finset.card_lt_card ⟨fun j hj => ?_, fun hsub => ?_⟩
  · rw [Finset.mem_filter, mem_cons, not_or] at hj
    exact Finset.mem_filter.2 ⟨hj.1, hj.2.2⟩
  · have hmem := hsub (Finset.mem_filter.2 ⟨Finset.mem_range.2 hi, hnew⟩)
    exact (Finset.mem_filter.1 hmem).2 mem_cons_self

section

variable {h : List (Event × Option Answer)} {s : State} (hinv : Inv capacity h s)

include hinv

/-- A call that has begun returns with its next step or comes closer to it. -/
theorem Inv.exists_progress (hbusy : s.consumer ≠ .idle) :
    ∃ i, (∃ r, (Shmem.stepConsumer capacity i s).2 = some (.received (.ok r)) ∧
        (Shmem.stepConsumer capacity i s).1.consumer = .idle) ∨
      ((Shmem.stepConsumer capacity i s).2 = none ∧ (Shmem.stepConsumer capacity i s).1.consumer ≠ .idle ∧
        Prod.Lex (· < ·) (· < ·) (rank (Shmem.stepConsumer capacity i s).1.consumer) (rank s.consumer)) := by
  cases hphase : s.consumer with
  | idle => exact absurd hphase hbusy
  | called =>
    refine ⟨0, .inr ?_⟩
    simp only [Shmem.stepConsumer, hphase, rank]
    exact ⟨trivial, by simp, .left _ _ (by omega)⟩
  | loaded write =>
    have hconsumer := hinv.consumer
    rw [hphase] at hconsumer
    obtain ⟨seen, hdel, -, rfl⟩ := hconsumer
    have hle := length_stream_le hdel
    refine ⟨0, ?_⟩
    simp only [Shmem.stepConsumer, hphase, rank,
      if_neg (show ¬ (stream seen).length < s.map.read by rw [hinv.shared.read]; omega)]
    split_ifs
    · exact .inl ⟨none, rfl, rfl⟩
    · exact .inr ⟨rfl, by simp, .left _ _ (by simp)⟩
  | copying write read len dst copied =>
    by_cases hcomplete : Complete dst.length copied
    · obtain ⟨c, hchecked, rfl, hfits, -⟩ := hinv.copying hphase hcomplete
      refine ⟨0, ?_⟩
      simp only [Shmem.stepConsumer, hphase, if_pos hcomplete]
      cases len with
      | none =>
        rw [completeRecv_wanted hchecked hfits]
        exact .inr ⟨rfl, by simp, .left _ _ (by simp)⟩
      | some n =>
        simp only [completeRecv, wanted, hchecked.1.decode]
        exact .inl ⟨some c, rfl, trivial⟩
    · have hmissing := hcomplete
      simp only [Complete, not_forall] at hmissing
      obtain ⟨i, hi, hnew⟩ := hmissing
      refine ⟨i, .inr ?_⟩
      simp only [Shmem.stepConsumer, hphase, if_neg hcomplete, if_pos hi]
      refine ⟨trivial, by simp, ?_⟩
      simp only [rank, length_set]
      exact .right _ (card_missing_lt hi hnew)

end

/-- **A call of `recv` returns**: the consumer's own steps suffice. -/
theorem Inv.exists_return (hinv : Inv capacity h s) (hbusy : s.consumer ≠ .idle) :
    ∃ more i r, (∀ e ∈ more, e.OfConsumer) ∧
      (stepConsumer capacity i ((machine capacity).final s more)).2 = some (.received (.ok r)) ∧
      (stepConsumer capacity i ((machine capacity).final s more)).1.consumer = .idle := by
  generalize hrank : rank s.consumer = n
  induction n using (Prod.lex lt_wfRel lt_wfRel).wf.induction generalizing h s with
  | _ n ih =>
    obtain ⟨i, ⟨r, hreturn, hidle⟩ | ⟨hnone, hbusy', hless⟩⟩ := hinv.exists_progress hbusy
    · exact ⟨[], i, r, nofun, hreturn, hidle⟩
    · obtain ⟨more, j, r, hmore, hreturn⟩ := ih _ (hrank ▸ hless) (hinv.step (.consumer i)) hbusy' rfl
      exact ⟨.consumer i :: more, j, r, forall_mem_cons.2 ⟨trivial, hmore⟩, hreturn⟩

theorem fresh_of_idle (hidle : s.consumer = .idle) : Fresh s := by
  rw [Fresh, hidle]
  trivial

/-- A call of `recv` from its start. -/
theorem Inv.exists_call (hinv : Inv capacity h s) (hidle : s.consumer = .idle) :
    ∃ call i r, (∀ e ∈ call, e.OfConsumer) ∧
      (stepConsumer capacity i ((machine capacity).final s call)).2 = some (.received (.ok r)) ∧
      (stepConsumer capacity i ((machine capacity).final s call)).1.consumer = .idle := by
  have hcall : (machine capacity).step s .recv = (⟨s.map, s.producer, .called⟩, none) := by
    simp only [machine, hidle]
  obtain ⟨more, i, r, hmore, hreturn⟩ := (hinv.step .recv).exists_return (by rw [hcall]; simp)
  exact ⟨.recv :: more, i, r, forall_mem_cons.2 ⟨trivial, hmore⟩, hreturn⟩

/-- **Calling `recv` until it returns `None` returns all the rest.** -/
theorem Inv.exists_drain (hinv : Inv capacity h s) (hidle : s.consumer = .idle) :
    ∃ more i, (∀ e ∈ more, e.OfConsumer) ∧
      (stepConsumer capacity i ((machine capacity).final s more)).2 = some (.received (.ok none)) ∧
      delivered (h ++ (machine capacity).trace s more) = accepted h := by
  generalize hn : (accepted h).length - (delivered h).length = n
  induction n using Nat.strong_induction_on generalizing h s with
  | _ n ih =>
    obtain ⟨call, i, r, hcall, hreturn, hidle'⟩ := hinv.exists_call hidle
    have hrun := hinv.run call
    obtain ⟨-, -, haccepted⟩ := hinv.run_of_consumer hcall
    cases r with
    | none =>
      refine ⟨call, i, hcall, hreturn, ?_⟩
      rw [hrun.delivered_of_none (hinv.fresh_run (fresh_of_idle hidle) hcall) hreturn, haccepted]
    | some c =>
      -- one more cofre is delivered, and the same again for the others
      have hanswer : ((machine capacity).step ((machine capacity).final s call) (.consumer i)).2 =
          some (.received (.ok (some c))) := hreturn
      have hnext := hrun.step (.consumer i)
      rw [hanswer] at hnext
      have hdelivered := delivered_concat (h ++ (machine capacity).trace s call) (.consumer i)
        (some (.received (.ok (some c))))
      have hsame := accepted_concat (h ++ (machine capacity).trace s call) (.consumer i)
        (some (.received (.ok (some c))))
      simp only [bind_some, Answer.delivered, Answer.accepted, toList_some, toList_none,
        append_nil, haccepted] at hdelivered hsame
      have hlength := hnext.shared.order.length_le
      have hmore : (delivered h).length ≤ (delivered (h ++ (machine capacity).trace s call)).length := by
        rw [delivered, delivered, filterMap_append, length_append]
        omega
      rw [hdelivered, hsame, length_append, length_singleton] at hlength
      have hfewer : (accepted h).length - (delivered (h ++ (machine capacity).trace s call) ++ [c]).length < n := by
        rw [length_append, length_singleton]
        omega
      obtain ⟨more', j, hmore', hnone, hall⟩ := ih _ hfewer hnext hidle' (by rw [hdelivered, hsame])
      refine ⟨call ++ .consumer i :: more', j, forall_mem_append.2 ⟨hcall, forall_mem_cons.2 ⟨trivial, hmore'⟩⟩, ?_, ?_⟩
      · rw [Machine.final_append, Machine.final_cons]
        exact hnone
      · rw [Machine.trace_append, Machine.trace_cons, hanswer, ← append_assoc, append_cons, hall, hsame]

/-! ### The queue -/

/-- The state after a run. -/
def run (capacity : ℕ) (events : List Event) : State := (machine capacity).final (initial capacity) events

/-- What was called and returned. -/
def history (capacity : ℕ) (events : List Event) : List (Event × Option Answer) :=
  (machine capacity).trace (initial capacity) events

section

variable {h : List (Event × Option Answer)} {s : State} (hinv : Inv capacity h s)

include hinv

/-- No step changes a byte that has not been consumed. -/
theorem Inv.cells_step (e : Event) {p : ℕ} (hread : s.map.read ≤ p) (hwrite : p < s.map.write) :
    ((machine capacity).step s e).1.map.cells[p % capacity]? = s.map.cells[p % capacity]? := by
  cases e with
  | send c =>
    simp only [machine]
    cases s.producer with
    | idle => cases checkFrame capacity c <;> rfl
    | _ => rfl
  | recv =>
    simp only [machine]
    cases s.consumer <;> rfl
  | consumer i =>
    rcases hinv.shared.stepConsumer hinv.consumer i with ⟨p, heq, -⟩ | ⟨heq, -⟩ | ⟨c, -, heq⟩ <;>
      simp only [machine, heq]
  | producer i =>
    rcases hinv.shared.stepProducer hinv.producer i with ⟨cells, p, heq, hshared, -⟩ | ⟨c, e, heq⟩ | ⟨c, write, heq, -⟩ <;>
      simp only [machine, heq]
    exact (hshared.holds _ hread hwrite).trans (hinv.shared.holds _ hread hwrite).symm

/-- The two sides never copy to and from the same cell. -/
theorem Inv.disjoint {c : Cofre} {write nextWrite write' read : ℕ} {copied copied' : List ℕ} {len : Option ℕ}
    {dst : Bytes} (hproducer : s.producer = .copying c write nextWrite copied)
    (hconsumer : s.consumer = .copying write' read len dst copied') {i j : ℕ} (hi : i < (frame c).length)
    (hj : j < dst.length) :
    Ring.slot capacity write (frame c).length i ≠ Ring.slot capacity (source read len) dst.length j := by
  have hp := hinv.producer
  have hc := hinv.consumer
  rw [hproducer] at hp
  rw [hconsumer] at hc
  obtain ⟨hchecked, rfl, hnext, hwindow, -⟩ := hp
  obtain ⟨c', hc', rfl, hfits, -, hlen, -⟩ := hc
  have hle := length_wanted_le c' len
  have hsource : source s.map.read len = s.map.read + source 0 len := by cases len <;> simp [source]
  have hwritten := length_stream_le hc'
  rw [stream_append, stream_singleton, length_append, ← hinv.shared.read, ← hinv.shared.write] at hwritten
  rw [Ring.slot_eq hi hchecked.2, Ring.slot_eq hj (by omega)]
  exact (Ring.mod_ne_mod (by omega) (by omega)).symm

/-- A `send` that has loaded the consumer's cursor finds the ring full if the frame does not fit then. -/
theorem Inv.full_iff {c : Cofre} (hcalled : s.producer = .called c) (i j : ℕ) {between : List Event}
    (hbetween : ∀ e ∈ between, e.OfConsumer) :
    ((machine capacity).step ((machine capacity).final ((machine capacity).step s (.producer i)).1 between)
        (.producer j)).2 = some (.sent c (.error ringFull)) ↔
      capacity - (s.map.write - s.map.read) < (frame c).length := by
  have hload : (machine capacity).step s (.producer i) = (⟨s.map, .loaded c s.map.read, s.consumer⟩, none) := by
    simp only [machine, Shmem.stepProducer, hcalled]
  have hloaded := hinv.step (.producer i)
  rw [hload] at hloaded ⊢
  obtain ⟨hproducer, hwrite, -⟩ := hloaded.run_of_consumer hbetween
  have hwindow := hinv.shared.window
  generalize (machine capacity).final _ between = t at hproducer hwrite ⊢
  change (Shmem.stepProducer capacity j t).2 = _ ↔ _
  rw [Shmem.stepProducer]
  simp only [hproducer, hwrite, reserve_eq hinv.shared.read_le_write hwindow, ← length_frame]
  split_ifs with hfull hword
  · exact ⟨fun _ => hfull, fun _ => rfl⟩
  · exact ⟨fun h => by simp [ringFull] at h, fun h => absurd h hfull⟩
  · exact ⟨fun h => by simp at h, fun h => absurd h hfull⟩

end

/-- **The ring is a bounded queue.**  In every interleaving: `recv` has returned no error; the cofres it has
returned are a prefix of those whose `send` returned `Ok`; once the producer is at rest, `recv` returns `None`
only when it has returned all of them, and calling it again and again comes to that; no step changes a byte
that is not consumed, and the two sides never copy to and from the same cell; `send` reports a full ring
exactly when the frame did not fit into the space that was free when it loaded the consumer's cursor. -/
theorem ring_is_queue (capacity : ℕ) (events : List Event) :
    (∀ x ∈ history capacity events, ∀ e, x.2 ≠ some (.received (.error e))) ∧
      delivered (history capacity events) <+: accepted (history capacity events) ∧
      ((run capacity events).consumer = .idle → ∀ more, (∀ e ∈ more, e.OfConsumer) →
        ∀ i, ((machine capacity).step (run capacity (events ++ more)) (.consumer i)).2 = some (.received (.ok none)) →
        delivered (history capacity (events ++ more)) = accepted (history capacity events)) ∧
      ((run capacity events).consumer = .idle → ∃ more i, (∀ e ∈ more, e.OfConsumer) ∧
        ((machine capacity).step (run capacity (events ++ more)) (.consumer i)).2 = some (.received (.ok none)) ∧
        delivered (history capacity (events ++ more)) = accepted (history capacity events)) ∧
      (∀ e p, (run capacity events).map.read ≤ p → p < (run capacity events).map.write →
        ((machine capacity).step (run capacity events) e).1.map.cells[p % capacity]? =
          (run capacity events).map.cells[p % capacity]?) ∧
      (∀ c write nextWrite copied write' read len dst copied',
        (run capacity events).producer = .copying c write nextWrite copied →
        (run capacity events).consumer = .copying write' read len dst copied' →
        ∀ i < (frame c).length, ∀ j < dst.length,
          Ring.slot capacity write (frame c).length i ≠ Ring.slot capacity (source read len) dst.length j) ∧
      ∀ c, (run capacity events).producer = .called c → ∀ i j between, (∀ e ∈ between, e.OfConsumer) →
        (((machine capacity).step (run capacity (events ++ .producer i :: between)) (.producer j)).2 =
            some (.sent c (.error ringFull)) ↔
          capacity - ((run capacity events).map.write - (run capacity events).map.read) < (frame c).length) := by
  have hinv : Inv capacity (history capacity events) (run capacity events) := (inv_initial capacity).run events
  have hrun : ∀ more, run capacity (events ++ more) = (machine capacity).final (run capacity events) more :=
    fun more => Machine.final_append ..
  have hhistory : ∀ more, history capacity (events ++ more) =
      history capacity events ++ (machine capacity).trace (run capacity events) more :=
    fun more => Machine.trace_append ..
  simp only [hrun, hhistory]
  refine ⟨hinv.clean, hinv.shared.order, fun hidle more hmore i hnone => ?_, fun hidle => hinv.exists_drain hidle,
    fun e p => hinv.cells_step e, fun c write nextWrite copied write' read len dst copied' hp hc i hi j hj =>
      hinv.disjoint hp hc hi hj, fun c hcalled i j between hbetween => hinv.full_iff hcalled i j hbetween⟩
  rw [(hinv.run more).delivered_of_none (hinv.fresh_run (fresh_of_idle hidle) hmore) hnone,
    (hinv.run_of_consumer hmore).2.2]

end Shmem
end Datarail.Substrate
