import AetherOptExt.HotReload
import AetherOptExt.Lib.LittleEndian

/-! # The bytes that `read_inotify` reads

`readInotify` of `AetherOptExt.HotReload` works on events.  The source reads up to 1024 bytes into
a buffer and walks over it from header to header: 16 bytes with the mask at 4 and the length of
the name that follows at 12.  `scanEvents` is this walk; a field that is not within the bytes the
kernel has filled has no value, so that a result says that every read was in bounds.

`read_inotify_bytes` says that the walk is in bounds and comes to an end on every buffer, and that
on the buffers of the kernel, which hands over whole records as long as they fit, it answers what
`readInotify` answers. -/

namespace AetherOptExt

open LittleEndian

/-- `inotify_event` with its name, padded by the kernel. -/
structure InotifyRecord where
  wd : BitVec 32
  mask : BitVec 32
  cookie : BitVec 32
  name : List UInt8
  short : name.length < 2 ^ 32

/-- `size_of::<inotify_event>()`. -/
def inotifyHdr : ℕ := 16

def inCloseWrite : BitVec 32 := 0x8

def inDeleteSelf : BitVec 32 := 0x400

def inMoveSelf : BitVec 32 := 0x800

def inIgnored : BitVec 32 := 0x8000

/-- The mask asks for a reload, or for a reload and a new watch. -/
def asksReload (mask : BitVec 32) : Bool := mask &&& inCloseWrite != 0 || mask &&& (inDeleteSelf ||| inMoveSelf) != 0

def asksRewatch (mask : BitVec 32) : Bool := mask &&& (inDeleteSelf ||| inMoveSelf) != 0

namespace InotifyRecord

def bytes (e : InotifyRecord) : List UInt8 :=
  ofWord e.wd ++ (ofWord e.mask ++ (ofWord e.cookie ++ (ofWord (BitVec.ofNat 32 e.name.length) ++ e.name)))

@[simp] theorem length_bytes (e : InotifyRecord) : e.bytes.length = inotifyHdr + e.name.length := by
  simp only [bytes, List.length_append, length_ofWord, inotifyHdr]
  omega

/-- The records that the kernel hands over: whole ones, as long as they fit. -/
def fitting : ℕ → List InotifyRecord → List InotifyRecord
  | _, [] => []
  | room, e :: es => if e.bytes.length ≤ room then e :: fitting (room - e.bytes.length) es else []

end InotifyRecord

/-! ### The walk -/

/-- A field of the header, when the kernel has filled it. -/
def headerField (buf : List UInt8) (off : ℕ) : Option (BitVec 32) :=
  if off + 4 ≤ buf.length then some (word off buf) else none

/-- The loop of `read_inotify` over the filled bytes, with the flags `reload` and `rewatch`. -/
def scanEvents (buf : List UInt8) (off : ℕ) (reload rewatch : Bool) : Option (Bool × Bool) :=
  if off + inotifyHdr ≤ buf.length then
    match headerField buf (off + 4), headerField buf (off + 12) with
    | some mask, some len =>
        let reload := if mask &&& inCloseWrite != 0 then true else reload
        let both := if mask &&& (inDeleteSelf ||| inMoveSelf) != 0 then (true, true) else (reload, rewatch)
        scanEvents buf (off + (inotifyHdr + len.toNat)) both.1 both.2
    | _, _ => none
  else some (reload, rewatch)
termination_by buf.length - off
decreasing_by
  unfold inotifyHdr at *
  omega

/-- `read_inotify` on the bytes that the read has filled; there are none when it fails. -/
def readInotifyBytes (buf : List UInt8) : Option (Option ℕ) :=
  if buf.isEmpty then some none
  else (scanEvents buf 0 false false).map (fun flags =>
    if flags.1 then some (if flags.2 then 2 else 1) else none)

/-- One header, when there is one. -/
theorem scanEvents_step {buf : List UInt8} {off : ℕ} (h : off + inotifyHdr ≤ buf.length) (reload rewatch : Bool) :
    scanEvents buf off reload rewatch =
      scanEvents buf (off + (inotifyHdr + (word (off + 12) buf).toNat)) (reload || asksReload (word (off + 4) buf))
        (rewatch || asksRewatch (word (off + 4) buf)) := by
  have h4 : headerField buf (off + 4) = some (word (off + 4) buf) := if_pos (by unfold inotifyHdr at h; omega)
  have h12 : headerField buf (off + 12) = some (word (off + 12) buf) := if_pos (by unfold inotifyHdr at h; omega)
  rw [scanEvents, if_pos h, h4, h12]
  unfold asksReload asksRewatch
  dsimp only
  generalize (word (off + 4) buf &&& inCloseWrite != 0) = written
  generalize (word (off + 4) buf &&& (inDeleteSelf ||| inMoveSelf) != 0) = gone
  cases written <;> cases gone <;> simp

theorem scanEvents_end {buf : List UInt8} {off : ℕ} (h : ¬ off + inotifyHdr ≤ buf.length) (reload rewatch : Bool) :
    scanEvents buf off reload rewatch = some (reload, rewatch) := by
  rw [scanEvents, if_neg h]

/-- The walk reads filled bytes only and comes to an end, whatever they are. -/
theorem scanEvents_total (buf : List UInt8) (off : ℕ) (reload rewatch : Bool) :
    ∃ flags, scanEvents buf off reload rewatch = some flags := by
  by_cases h : off + inotifyHdr ≤ buf.length
  · rw [scanEvents_step h]
    exact scanEvents_total buf _ _ _
  · exact ⟨_, scanEvents_end h reload rewatch⟩
termination_by buf.length - off
decreasing_by
  unfold inotifyHdr at *
  omega

/-- The fields of a record are read back wherever it stands. -/
theorem InotifyRecord.fields (front : List UInt8) (e : InotifyRecord) (back : List UInt8) :
    word (front.length + 4) (front ++ (e.bytes ++ back)) = e.mask ∧
      word (front.length + 12) (front ++ (e.bytes ++ back)) = BitVec.ofNat 32 e.name.length := by
  constructor
  · have hmask : word (front.length + 4) (front ++ ofWord e.wd ++ (ofWord e.mask ++
        (ofWord e.cookie ++ (ofWord (BitVec.ofNat 32 e.name.length) ++ (e.name ++ back))))) = e.mask :=
      word_append _ e.mask _ (by simp)
    simpa only [InotifyRecord.bytes, List.append_assoc] using hmask
  · have hlen : word (front.length + 12) (front ++ (ofWord e.wd ++ (ofWord e.mask ++ ofWord e.cookie)) ++
        (ofWord (BitVec.ofNat 32 e.name.length) ++ (e.name ++ back))) = BitVec.ofNat 32 e.name.length :=
      word_append _ (BitVec.ofNat 32 e.name.length) _ (by simp)
    simpa only [InotifyRecord.bytes, List.append_assoc] using hlen

/-- The walk over whole records sees each of them once. -/
theorem scanEvents_records : ∀ (es : List InotifyRecord) (front : List UInt8) (reload rewatch : Bool),
    scanEvents (front ++ es.flatMap InotifyRecord.bytes) front.length reload rewatch =
      some (reload || es.any (fun e => asksReload e.mask), rewatch || es.any (fun e => asksRewatch e.mask))
  | [], front, reload, rewatch => by
      rw [scanEvents_end (by simp [inotifyHdr])]
      simp
  | e :: es, front, reload, rewatch => by
      have hin : front.length + inotifyHdr ≤ (front ++ (e :: es).flatMap InotifyRecord.bytes).length := by
        simp only [List.flatMap_cons, List.length_append, InotifyRecord.length_bytes]
        omega
      obtain ⟨hmask, hlen⟩ := e.fields front (es.flatMap InotifyRecord.bytes)
      have hname : (BitVec.ofNat 32 e.name.length).toNat = e.name.length := by
        rw [BitVec.toNat_ofNat, Nat.mod_eq_of_lt e.short]
      rw [scanEvents_step hin, List.flatMap_cons, hmask, hlen, hname]
      -- the next header is behind the record
      have hfront : front.length + (inotifyHdr + e.name.length) = (front ++ e.bytes).length := by
        rw [List.length_append, InotifyRecord.length_bytes]
      rw [← List.append_assoc, hfront, scanEvents_records es, List.any_cons, List.any_cons, Bool.or_assoc,
        Bool.or_assoc]

/-! ### The kernel's buffers -/

/-- The mask of an event. -/
def InotifyEvent.mask : InotifyEvent → BitVec 32
  | .closeWrite => inCloseWrite
  | .deleteSelf => inDeleteSelf
  | .moveSelf => inMoveSelf
  | .ignored => inIgnored

/-- The record of an event of a watched file: it has no name. -/
def InotifyEvent.record (wd : BitVec 32) (e : InotifyEvent) : InotifyRecord := ⟨wd, e.mask, 0, [], by decide⟩

theorem asksReload_mask (e : InotifyEvent) : asksReload e.mask = e.reload := by
  cases e <;> decide

theorem asksRewatch_mask (e : InotifyEvent) : asksRewatch e.mask = e.rewatch := by
  cases e <;> decide

/-- Records without names: as many as 16 bytes fit into the room. -/
theorem fitting_records (wd : BitVec 32) : ∀ (es : List InotifyEvent) (n : ℕ),
    InotifyRecord.fitting (inotifyHdr * n) (es.map (InotifyEvent.record wd)) =
      (es.take n).map (InotifyEvent.record wd)
  | [], n => by simp [InotifyRecord.fitting]
  | e :: es, 0 => by simp [InotifyRecord.fitting, inotifyHdr, InotifyEvent.record]
  | e :: es, n + 1 => by
      have hlen : (e.record wd).bytes.length = inotifyHdr := by simp [InotifyEvent.record]
      have hroom : inotifyHdr * (n + 1) - inotifyHdr = inotifyHdr * n := by
        rw [Nat.mul_succ, Nat.add_sub_cancel]
      rw [List.map_cons, InotifyRecord.fitting, if_pos (by rw [hlen, Nat.mul_succ]; omega), hlen, hroom,
        fitting_records wd es n, List.take_succ_cons, List.map_cons]

theorem readInotifyBytes_isSome (buf : List UInt8) : (readInotifyBytes buf).isSome = true := by
  unfold readInotifyBytes
  split_ifs
  · rfl
  · obtain ⟨flags, hflags⟩ := scanEvents_total buf 0 false false
    rw [hflags]
    rfl

/-- A mask that asks for a new watch asks for a reload as well. -/
theorem any_asksReload {es : List InotifyRecord} (h : es.any (fun e => asksRewatch e.mask) = true) :
    es.any (fun e => asksReload e.mask) = true := by
  obtain ⟨e, he, ha⟩ := List.any_eq_true.mp h
  have hrewatch : (e.mask &&& (inDeleteSelf ||| inMoveSelf) != 0) = true := ha
  refine List.any_eq_true.mpr ⟨e, he, ?_⟩
  unfold asksReload
  rw [hrewatch, Bool.or_true]

/-- On whole records the answer is by the masks. -/
theorem readInotifyBytes_records (es : List InotifyRecord) :
    readInotifyBytes (es.flatMap InotifyRecord.bytes) =
      some (if es.any (fun e => asksRewatch e.mask) then some 2
        else if es.any (fun e => asksReload e.mask) then some 1 else none) := by
  have hscan := scanEvents_records es [] false false
  simp only [List.nil_append, List.length_nil, Bool.false_or] at hscan
  unfold readInotifyBytes
  cases es with
  | nil => rfl
  | cons e es =>
      have hne : ((e :: es).flatMap InotifyRecord.bytes).isEmpty = false := by
        rw [List.isEmpty_eq_false_iff, ← List.length_pos_iff]
        simp only [List.flatMap_cons, List.length_append, InotifyRecord.length_bytes, inotifyHdr]
        omega
      rw [hne, if_neg Bool.false_ne_true, hscan, Option.map_some]
      cases hw : (e :: es).any (fun e => asksRewatch e.mask) with
      | true => simp [any_asksReload hw]
      | false => rfl

/-- `readInotify` answers by the masks of the events that it takes. -/
theorem readInotify_fst (i : Inotify) : (readInotify (some i)).1 =
    if i.batch.any (fun e => asksRewatch e.mask) then some 2
    else if i.batch.any (fun e => asksReload e.mask) then some 1 else none := by
  simp only [asksReload_mask, asksRewatch_mask]
  have himp : i.batch.any InotifyEvent.rewatch = true → i.batch.any InotifyEvent.reload = true := by
    intro h
    obtain ⟨e, he, ha⟩ := List.any_eq_true.mp h
    refine List.any_eq_true.mpr ⟨e, he, ?_⟩
    cases e with
    | closeWrite => rfl
    | deleteSelf => rfl
    | moveSelf => rfl
    | ignored => cases ha
  unfold readInotify
  dsimp only
  cases hw : i.batch.any InotifyEvent.rewatch with
  | true => rw [himp hw, if_pos rfl, if_pos rfl, if_pos rfl]
  | false => rw [if_neg Bool.false_ne_true, if_neg Bool.false_ne_true]

/-- **`read_inotify` on bytes.**  On every buffer the walk reads filled bytes only and comes to an
end.  On the records that the kernel hands over it answers by the masks of all of them, whatever
names they have; and for the events of a watched file this is the answer of `readInotify`, which
leaves the same events unread. -/
theorem read_inotify_bytes :
    (∀ buf, (readInotifyBytes buf).isSome = true) ∧
    (∀ es : List InotifyRecord, readInotifyBytes ((InotifyRecord.fitting 1024 es).flatMap InotifyRecord.bytes) =
      some (if (InotifyRecord.fitting 1024 es).any (fun e => asksRewatch e.mask) then some 2
        else if (InotifyRecord.fitting 1024 es).any (fun e => asksReload e.mask) then some 1 else none)) ∧
    ∀ (i : Inotify) (wd : BitVec 32),
      readInotifyBytes ((InotifyRecord.fitting 1024 (i.events.map (InotifyEvent.record wd))).flatMap
          InotifyRecord.bytes) = some (readInotify (some i)).1 ∧
        (readInotify (some i)).2 = some ⟨i.watches,
          i.events.drop (InotifyRecord.fitting 1024 (i.events.map (InotifyEvent.record wd))).length⟩ := by
  refine ⟨readInotifyBytes_isSome, fun es => readInotifyBytes_records _, fun i wd => ?_⟩
  have hfit : InotifyRecord.fitting 1024 (i.events.map (InotifyEvent.record wd)) =
      i.batch.map (InotifyEvent.record wd) := fitting_records wd i.events 64
  constructor
  · rw [hfit, readInotifyBytes_records, readInotify_fst, List.any_map, List.any_map]
    rfl
  · have hdrop : i.events.drop i.batch.length = i.events.drop 64 := by
      unfold Inotify.batch
      rw [List.length_take]
      by_cases h : 64 ≤ i.events.length
      · rw [min_eq_left h]
      · rw [min_eq_right (by omega), List.drop_length, List.drop_eq_nil_of_le (by omega)]
    rw [hfit, List.length_map, hdrop]
    rfl

end AetherOptExt
