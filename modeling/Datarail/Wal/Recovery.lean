/-
# Opening a write-ahead log

`open_with` finds the newest segment, cuts its torn tail, and starts to read at the cursor
file.  `Shelf` is a directory that it opens well: the files are the frames of some entries,
with bytes that are no frame at the end of the newest, and everything behind the cursor file
is dealt with.

A crash leaves such a directory (`Holds.crash`), whatever it takes of what was not synced,
and so does a log that is dropped (`Holds.shelf`).  What a sync covers is among the entries
afterwards, and of the entries that it does not cover a first part is.
-/

import Datarail.Wal.Invariant

namespace Datarail.Wal

open Lib List View

/-- A directory that is opened well. -/
structure Shelf (d : Dealt) (v : View) (torn : Bytes) (disk : Disk) (top : ℕ) : Prop where
  highest : disk.highestSegment.getD 1 = top
  content : disk.content top = bytesAt v.written top ++ torn
  torn : wire.parse torn = none
  sorted : v.written.Pairwise fun x y => x.1 ≤ y.1
  fits : ∀ e ∈ v.written, FitsWire e.2
  range : ∀ e ∈ v.written, 1 ≤ e.1 ∧ e.1 ≤ top
  loose : ∀ e ∈ v.loose, e.1 = top
  files : ∀ s content, disk.segments.lookup s = some content →
    1 ≤ s ∧ s ≤ top ∧ (s ≠ top → content = bytesAt v.written s)
  durable : min disk.durable (bytesAt v.written top).length = (bytesAt v.safe top).length
  position : Divides v.before v.ahead (markId disk.cursor) (markOff disk.cursor)
  low : markId disk.cursor ≤ top
  present : ∀ s, markId disk.cursor ≤ s → s < top → (disk.segments.lookup s).isSome
  done : ∀ e ∈ v.before, d.Done e
  pending : v.pending = []

section Open

variable {d : Dealt} {v : View} {torn : Bytes} {disk : Disk} {top : ℕ}

/-- The scan finds the end of the entries. -/
theorem Shelf.recoverSegmentEnd (h : Shelf d v torn disk top) :
    recoverSegmentEnd ((disk.content top).length + 1) (disk.content top) 0 = (bytesAt v.written top).length := by
  have hfits : ∀ body ∈ (v.written.filter fun e => decide (e.1 = top)).map fun e => e.2.encode, wire.Fits body := by
    intro body hbody
    obtain ⟨e, he, rfl⟩ := mem_map.1 hbody
    exact fits_encode (h.fits e (mem_of_mem_filter he))
  have hfuel : ((v.written.filter fun e => decide (e.1 = top)).map fun e => e.2.encode).length <
      (disk.content top).length + 1 := by
    have := Codec.length_le_frames (K := wire) ((v.written.filter fun e => decide (e.1 = top)).map fun e => e.2.encode)
    rw [h.content, length_append]
    unfold bytesAt
    omega
  have hscan := @recoverSegmentEnd_eq [] _ _ _ hfits h.torn hfuel
  rw [h.content] at hscan ⊢
  exact hscan

/-- **Opening a log.** -/
theorem Shelf.holds (h : Shelf d v torn disk top) : Holds d v (.openWith disk) := by
  have hend := h.recoverSegmentEnd
  have htake : (disk.content top).take (bytesAt v.written top).length = bytesAt v.written top := by
    rw [h.content, take_left]
  have hopen : DurableLog.openWith disk =
      { disk := { disk.fsyncDir with
          segments := disk.segments.insert top (bytesAt v.written top)
          durable := (bytesAt v.safe top).length }
        activeId := top
        writeOff := (bytesAt v.written top).length
        buf := []
        readId := markId disk.cursor
        readOff := markOff disk.cursor
        inflight := .empty
        segInflight := ∅
        poisoned := false } := by
    unfold DurableLog.openWith
    dsimp only
    rw [h.highest, hend, htake, h.durable]
    rfl
  have hlookup : ∀ s, (disk.segments.insert top (bytesAt v.written top)).lookup s =
      if s = top then some (bytesAt v.written top) else disk.segments.lookup s := fun s => lookup_insert_ite _ _ _ _
  have hone : 1 ≤ markId disk.cursor := Nat.le_max_right _ _
  rw [hopen]
  refine ⟨⟨h.sorted, h.fits, h.range, h.loose, fun s content hs => ?_, rfl, nofun⟩, ⟨h.position, hone, h.low, nofun⟩,
    ⟨?_, fun c hc => ?_, fun _ => rfl, fun _ => h.pending⟩,
    ⟨fun e he => (h.done e he).1, fun hunique e he => .inl ((h.done e he).2 hunique), fun s ids _ hids => ?_,
      fun s hs => absurd hs (Nat.lt_irrefl 0)⟩,
    ⟨fun s hs => absurd hs (Nat.lt_irrefl 0), nofun⟩, fun cursor hc => ?_⟩
  · rw [hlookup] at hs
    split_ifs at hs with heq
    · subst heq
      exact ⟨hone.trans h.low, le_refl _, (Option.some.inj hs).symm⟩
    · obtain ⟨hlow, hhigh, hcontent⟩ := h.files s content hs
      exact ⟨hlow, hhigh, hcontent heq⟩
  · rw [h.pending]
    rfl
  · rw [h.pending] at hc
    cases hc
  · cases ids with
    | nil => exact Nat.zero_le _
    | cons id ids => cases hids id mem_cons_self
  · obtain rfl := mem_singleton.1 hc
    refine ⟨le_refl _, fun s hlow hhigh => ?_, nofun, v.before, [], (append_nil _).symm, h.position, h.done⟩
    rw [hlookup]
    split_ifs with heq
    · rfl
    · exact h.present s hlow (lt_of_le_of_ne hhigh heq)

end Open

section Highest

/-- The newest segment. -/
theorem max_keys_eq {segments : AList fun _ : ℕ => Bytes} {top : ℕ} (htop : (segments.lookup top).isSome)
    (hle : ∀ s content, segments.lookup s = some content → s ≤ top) : segments.keys.max? = some top := by
  refine max?_eq_some_iff.2 ⟨?_, fun s hs => ?_⟩
  · exact AList.mem_keys.1 (AList.lookup_isSome.1 htop)
  · obtain ⟨content, hcontent⟩ := Option.isSome_iff_exists.1 (AList.lookup_isSome.2 (AList.mem_keys.2 hs))
    exact hle s content hcontent

/-- Files that are the frames of some entries, the newest with bytes behind them. -/
structure Filed (written : List Entry) (torn : Bytes) (segments : AList fun _ : ℕ => Bytes) (top : ℕ) : Prop where
  newest : segments.lookup top = some (bytesAt written top ++ torn)
  files : ∀ s content, segments.lookup s = some content → 1 ≤ s ∧ s ≤ top ∧ (s ≠ top → content = bytesAt written s)

variable {written : List Entry} {torn : Bytes} {segments : AList fun _ : ℕ => Bytes} {top : ℕ}

theorem Filed.max_keys (h : Filed written torn segments top) : segments.keys.max? = some top :=
  max_keys_eq (by rw [h.newest]; rfl) fun s content hs => (h.files s content hs).2.1

/-- An older segment is back. -/
theorem Filed.insert (h : Filed written torn segments top) {s : ℕ} {content : Bytes} (hone : 1 ≤ s) (hlt : s < top)
    (hcontent : content = bytesAt written s) : Filed written torn (segments.insert s content) top where
  newest := by rw [lookup_insert_ite, if_neg hlt.ne', h.newest]
  files t content' ht := by
    rw [lookup_insert_ite] at ht
    split_ifs at ht with heq
    · rw [heq, ← Option.some.inj ht]
      exact ⟨hone, hlt.le, fun _ => hcontent⟩
    · exact h.files t content' ht

variable {es : List (ℕ × Bytes)}

/-- Older segments are back. -/
theorem Filed.revive (h : Filed written torn segments top)
    (hes : ∀ e ∈ es, 1 ≤ e.1 ∧ e.1 < top ∧ e.2 = bytesAt written e.1) :
    Filed written torn (es.foldl (fun segments e => segments.insert e.1 e.2) segments) top := by
  induction es generalizing segments with
  | nil => exact h
  | cons e es ih =>
    obtain ⟨hone, hlt, hcontent⟩ := hes e mem_cons_self
    exact ih (h.insert hone hlt hcontent) fun x hx => hes x (mem_cons_of_mem _ hx)

theorem isSome_lookup_revive {s : ℕ} (h : (segments.lookup s).isSome) :
    ((es.foldl (fun segments e => segments.insert e.1 e.2) segments).lookup s).isSome := by
  induction es generalizing segments with
  | nil => exact h
  | cons e es ih =>
    refine ih ?_
    rw [lookup_insert_ite]
    split_ifs
    · rfl
    · exact h

end Highest

section Crash

variable {d : Dealt} {v : View} {l : DurableLog}

theorem Holds.highest (h : Holds d v l) : l.disk.highestSegment = some l.activeId :=
  max_keys_eq (by rw [h.present h.placed.high (le_refl _)]; rfl) fun s content hs => (h.stored.files s content hs).2.1

/-- **A log at rest is opened well**, and holds what it held. -/
theorem Holds.shelf (h : Holds d v l) :
    ∃ v', Shelf d v' [] l.disk l.activeId ∧ v'.written = v.written ∧ v'.safe = v.safe ∧ v'.loose = v.loose := by
  have hm := h.marks l.disk.cursor mem_cons_self
  obtain ⟨b, a, hb, hdiv, hdone⟩ := hm.splits
  set v' : View := ⟨b, a ++ v.rest, v.loose, []⟩ with hv'
  have hwritten : v'.written = v.written := by
    simp only [View.written, View.ahead, hv', hb, append_assoc]
  have hsafe : v'.safe = v.safe := by
    simp only [safe, hv', hb, append_assoc]
  refine ⟨v', ⟨?_, ?_, Codec.parse_nil, ?_, ?_, ?_, h.stored.loose, fun s content hs => ?_, ?_, ?_,
    hm.low.trans h.placed.high, fun s hlow hlt => hm.present s hlow hlt.le, hdone, rfl⟩, hwritten, hsafe, rfl⟩
  · rw [h.highest]
    rfl
  · rw [h.content, hwritten, append_nil]
  · rw [hwritten]
    exact h.stored.sorted
  · rw [hwritten]
    exact h.stored.fits
  · rw [hwritten]
    exact h.stored.range
  · rw [hwritten]
    obtain ⟨hlow, hhigh, hcontent⟩ := h.stored.files s content hs
    exact ⟨hlow, hhigh, fun _ => hcontent⟩
  · rw [hwritten, hsafe, h.stored.durable, written_eq, bytesAt_append, length_append]
    omega
  · rw [show v'.ahead = a ++ v.ahead from append_assoc _ _ _]
    exact hdiv

/-- What a crash leaves of the entries. -/
def View.left (v : View) (kept : ℕ) : List Entry := v.safe ++ v.loose.take kept

theorem View.left_sublist (v : View) (kept : ℕ) : (v.left kept).Sublist v.written := by
  rw [written_eq]
  exact (Sublist.refl _).append (take_sublist _ _)

/-- The bytes of the newest segment that a crash leaves. -/
theorem Holds.left_bytes (h : Holds d v l) (kept : ℕ) : (l.disk.content l.activeId).take l.disk.durable ++
        wire.frames ((wire.records ((l.disk.content l.activeId).drop l.disk.durable)).take kept) =
      bytesAt (v.left kept) l.activeId := by
  have hall : ∀ es : List Entry, (∀ e ∈ es, e.1 = l.activeId) →
      bytesAt es l.activeId = wire.frames (es.map fun e => e.2.encode) := by
    intro es hes
    rw [bytesAt, filter_eq_self.2 fun e he => decide_eq_true (hes e he)]
  have hloose : wire.records (bytesAt v.loose l.activeId) = v.loose.map fun e => e.2.encode := by
    have hfits : ∀ body ∈ v.loose.map fun e => e.2.encode, wire.Fits body := by
      intro body hbody
      obtain ⟨e, he, rfl⟩ := mem_map.1 hbody
      exact fits_encode (h.stored.fits e (mem_append_right _ (mem_append_right _ he)))
    have hrecords := Codec.records_frames hfits Codec.parse_nil
    rw [append_nil] at hrecords
    rw [hall v.loose h.stored.loose, hrecords.1]
  rw [h.content, written_eq, bytesAt_append, h.stored.durable, take_left, drop_left, hloose, left,
    bytesAt_append, hall (v.loose.take kept) fun e he => h.stored.loose e (mem_of_mem_take he), map_take]

/-- Nothing is lost from the older segments. -/
theorem Holds.left_bytes_of_ne (h : Holds d v l) (kept : ℕ) {s : ℕ} (hs : s ≠ l.activeId) :
    bytesAt (v.left kept) s = bytesAt v.written s := by
  have hloose : ∀ e ∈ v.loose, e.1 ≠ s := fun e he heq => hs (heq.symm.trans (h.stored.loose e he))
  rw [written_eq, left, bytesAt_append, bytesAt_append, bytesAt_eq_nil hloose,
    bytesAt_eq_nil fun e he => hloose e (mem_of_mem_take he)]

/-- What a crash leaves is opened well, given the files it leaves. -/
theorem Holds.shelf_left (h : Holds d v l) {kept top : ℕ} {torn : Bytes} {segments : AList fun _ : ℕ => Bytes}
    {cursor : Option Cursor} (hcursor : cursor ∈ l.disk.cursor :: l.disk.stale)
    (hfiled : Filed (v.left kept) torn segments top) (htorn : wire.parse torn = none)
    (hrange : ∀ e ∈ v.left kept, e.1 ≤ top) (hread : l.readId ≤ top)
    (hpresent : ∀ s, markId cursor ≤ s → s < top → (segments.lookup s).isSome) :
    ∃ v', Shelf d v' torn ⟨segments, ((segments.lookup (segments.keys.max?.getD 1)).getD []).length, true, cursor, [], []⟩ top ∧
      v'.written = v.left kept ∧ v'.safe = v.left kept ∧ v'.loose = [] := by
  have hm := h.marks cursor hcursor
  obtain ⟨b, a, hb, hdiv, hdone⟩ := hm.splits
  set v' : View := ⟨b, a ++ (v.rest ++ v.loose.take kept), [], []⟩ with hv'
  have hwritten : v'.written = v.left kept := by
    simp only [View.written, View.ahead, View.left, View.safe, hv', hb, append_assoc, append_nil]
  have hsafe : v'.safe = v.left kept := by
    simp only [safe, left, hv', hb, append_assoc]
  have hsub := v.left_sublist kept
  refine ⟨v', ⟨?_, ?_, htorn, ?_, fun e he => ?_, fun e he => ?_,
    by simp [hv'], ?_, ?_, ⟨hdiv.behind, fun e he => ?_, hdiv.off_eq⟩, hm.low.trans hread, hpresent, hdone,
    rfl⟩, hwritten, hsafe, rfl⟩
  · rw [Disk.highestSegment, hfiled.max_keys]
    rfl
  · rw [Disk.content, hfiled.newest, hwritten]
    rfl
  · rw [hwritten]
    exact h.stored.sorted.sublist hsub
  · rw [hwritten] at he
    exact h.stored.fits e (hsub.subset he)
  · rw [hwritten] at he
    exact ⟨(h.stored.range e (hsub.subset he)).1, hrange e he⟩
  · rw [hwritten]
    exact hfiled.files
  · rw [hfiled.max_keys, Option.getD_some, hfiled.newest, hwritten, hsafe, Option.getD_some, length_append]
    exact Nat.min_eq_right (Nat.le_add_right _ _)
  · refine hdiv.ahead e ?_
    have hahead : v'.ahead = a ++ (v.rest ++ v.loose.take kept) := append_nil _
    rw [hahead] at he
    refine (((Sublist.refl a).append ((Sublist.refl v.rest).append (take_sublist kept _))).subset he)

/-- The directory after a crash that leaves these files, and older ones. -/
def crashed (l : DurableLog) (loss : Loss) (segments : AList fun _ : ℕ => Bytes) : Disk :=
  let segments := (l.disk.unlinked.filter fun e => loss.revived e.1).foldl
    (fun segments e => segments.insert e.1 e.2) segments
  ⟨segments, ((segments.lookup (segments.keys.max?.getD 1)).getD []).length, true,
    ((l.disk.cursor :: l.disk.stale)[loss.cursor]?).getD l.disk.cursor, [], []⟩

/-- **The files that a crash leaves.**  A newest segment that the directory was not synced for
is empty, so that it may be gone. -/
theorem Holds.crash_files (h : Holds d v l) (loss : Loss) :
    ∃ segments torn kept top, l.disk.crash loss = crashed l loss segments ∧
      Filed (v.left kept) torn segments top ∧ wire.parse torn = none ∧ (∀ e ∈ v.left kept, e.1 ≤ top) ∧
      l.readId ≤ top ∧ top ≤ l.activeId ∧
      ∀ s, s < top → (l.disk.segments.lookup s).isSome → (segments.lookup s).isSome := by
  have hnewest : l.disk.highestSegment.getD 1 = l.activeId := by
    rw [h.highest]
    rfl
  by_cases hlost : (!l.disk.entry && loss.entryLost) = true
  · have hentry : l.disk.entry = false := by
      cases he : l.disk.entry with
      | false => rfl
      | true =>
        rw [he] at hlost
        cases hlost
    obtain ⟨-, hread, hbelow⟩ := h.placed.entry hentry
    have hloose : v.loose = [] := by
      refine eq_nil_iff_forall_not_mem.2 fun e he => ?_
      have := hbelow e (mem_append_right _ (mem_append_right _ he))
      have := h.stored.loose e he
      omega
    have hleft : v.left 0 = v.written := by
      rw [left, written_eq, hloose]
      rfl
    refine ⟨l.disk.segments.erase l.activeId, [], 0, l.activeId - 1, ?_, ⟨?_, fun s content hs => ?_⟩, Codec.parse_nil,
      fun e he => ?_, by omega, by omega, fun s hlt hs => ?_⟩
    · unfold Disk.crash crashed
      dsimp only
      rw [hnewest, if_pos hlost]
    · rw [hleft, lookup_erase_ite, if_neg (by omega), h.present (by omega) (by omega), append_nil]
    · rw [lookup_erase_ite] at hs
      split_ifs at hs with heq
      obtain ⟨hlow, hhigh, hcontent⟩ := h.stored.files s content hs
      rw [hleft]
      exact ⟨hlow, by omega, fun _ => hcontent⟩
    · rw [hleft] at he
      have := hbelow e he
      omega
    · rw [lookup_erase_ite, if_neg (by omega)]
      exact hs
  · refine ⟨l.disk.segments.insert l.activeId (bytesAt (v.left loss.kept) l.activeId ++
        if wire.parse loss.torn = none then loss.torn else []), if wire.parse loss.torn = none then loss.torn else [],
      loss.kept, l.activeId, ?_, ⟨?_, fun s content hs => ?_⟩, ?_,
      fun e he => (h.stored.range e ((v.left_sublist _).subset he)).2, h.placed.high, le_refl _, fun s hlt hs => ?_⟩
    · unfold Disk.crash crashed
      dsimp only
      rw [hnewest, if_neg hlost, ← append_assoc, h.left_bytes]
    · rw [lookup_insert_ite, if_pos rfl]
    · by_cases heq : s = l.activeId
      · rw [heq]
        exact ⟨h.placed.low.trans h.placed.high, le_refl _, fun hne => absurd rfl hne⟩
      · rw [lookup_insert_ite, if_neg heq] at hs
        obtain ⟨hlow, hhigh, hcontent⟩ := h.stored.files s content hs
        exact ⟨hlow, hhigh, fun _ => hcontent.trans (h.left_bytes_of_ne _ heq).symm⟩
    · split_ifs with htorn
      · exact htorn
      · exact Codec.parse_nil
    · rw [lookup_insert_ite, if_neg hlt.ne]
      exact hs

/-- **What a crash leaves is opened well.**  It holds all that a sync covers, and a first part
of the rest. -/
theorem Holds.crash (h : Holds d v l) (loss : Loss) :
    ∃ v' torn top, Shelf d v' torn (l.disk.crash loss) top ∧ v'.loose = [] ∧ v'.written.Sublist v.written ∧
      ∀ e ∈ v.safe, e ∈ v'.safe := by
  obtain ⟨segments, torn, kept, top, hcrash, hfiled, htorn, hrange, hread, htop, hpresent⟩ := h.crash_files loss
  have hcursor : ((l.disk.cursor :: l.disk.stale)[loss.cursor]?).getD l.disk.cursor ∈ l.disk.cursor :: l.disk.stale := by
    cases hget : (l.disk.cursor :: l.disk.stale)[loss.cursor]? with
    | none => exact mem_cons_self
    | some cursor => exact mem_of_getElem? hget
  have hrevived : Filed (v.left kept) torn ((l.disk.unlinked.filter fun e => loss.revived e.1).foldl
      (fun segments e => segments.insert e.1 e.2) segments) top := by
    refine hfiled.revive fun e he => ?_
    have he := mem_of_mem_filter he
    obtain ⟨hone, hlt, -⟩ := h.kept.gone e he
    refine ⟨hone, hlt.trans_le hread, ?_⟩
    rw [h.stored.unlinked e he, h.left_bytes_of_ne]
    omega
  obtain ⟨v', hshelf, hwritten, hsafe, hloose⟩ := h.shelf_left hcursor hrevived htorn hrange hread fun s hlow hlt =>
    isSome_lookup_revive (hpresent s hlt ((h.marks _ hcursor).present s hlow (hlt.le.trans htop)))
  rw [hcrash]
  refine ⟨v', torn, top, hshelf, hloose, ?_, fun e he => ?_⟩
  · rw [hwritten]
    exact v.left_sublist kept
  · rw [hsafe]
    exact mem_append_left _ he

end Crash

end Datarail.Wal
