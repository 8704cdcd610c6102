/-
`monitor_file`: what the kernel writes into the buffer of `read`, and the loop over it. The kernel
returns whole events; whatever stands in the buffer behind them, the loop finds each of them once, and
`read_resource_config` is called once for each file of the configured name that was closed after
writing.
-/
import Gemini.Comm.Wire
import Gemini.Lib.Records

namespace Gemini.Scheduler.Monitor

open Gemini.Lib Gemini.Comm

/-- `EVENT_SIZE`. -/
def eventSize : ℕ := 16

/-- `BUF_LEN`. -/
def bufLen : ℕ := 1024 * (eventSize + 16)

theorem bufLen_eq : bufLen = 32768 := rfl

/-- `IN_CLOSE_WRITE`. -/
def inCloseWrite : BitVec 32 := 8

/-! ## Events -/

/-- What the loop reads of a `struct inotify_event`: the name up to its terminator, if there is one. -/
structure InotifyEvent where
  wd : BitVec 32
  mask : BitVec 32
  len : BitVec 32
  name : List UInt8
deriving DecidableEq, Repr

/-- `(struct inotify_event *)&buffer[i]`, and the index of the next event. -/
def eventAt (buffer : List UInt8) (i : ℕ) : Option (InotifyEvent × ℕ) := do
  let (wd, m) ← getMsgData (BitVec 32) ⟨buffer, i⟩
  let (mask, m) ← getMsgData (BitVec 32) m
  let (_, m) ← getMsgData (BitVec 32) m
  let (len, m) ← getMsgData (BitVec 32) m
  return (⟨wd, mask, len, if len ≠ 0 then (buffer.drop m.pos).takeWhile fun b => b ≠ 0 else []⟩,
    i + (eventSize + len.toNat))

/-- The event is triggered by the target file. -/
def InotifyEvent.Triggers (filename : CString) (event : InotifyEvent) : Prop :=
  event.len ≠ 0 ∧ event.mask &&& inCloseWrite ≠ 0 ∧ event.name = filename.bytes

instance (filename : CString) (event : InotifyEvent) : Decidable (event.Triggers filename) :=
  inferInstanceAs (Decidable (_ ∧ _))

/-- The events of a buffer that trigger a call of `read_resource_config`. -/
def triggered (filename : CString) (buffer : List UInt8) (length : ℕ) : Option (List InotifyEvent) :=
  (records (eventAt buffer) length length 0).map fun events => events.filter fun event => event.Triggers filename

/-! ## What the kernel returns -/

/-- An event as the kernel lays it out: its name is terminated, and filled up with zeros. -/
@[ext]
structure Notice where
  wd : BitVec 32
  mask : BitVec 32
  cookie : BitVec 32
  name : List UInt8
  zeros : ℕ
  noNul : 0 ∉ name
  terminated : name ≠ [] → 0 < zeros
  short : name.length + zeros ≤ 256

namespace Notice

instance : DecidableEq Notice := fun n m =>
  decidable_of_iff (n.wd = m.wd ∧ n.mask = m.mask ∧ n.cookie = m.cookie ∧ n.name = m.name ∧ n.zeros = m.zeros)
    Notice.ext_iff.symm

variable (n : Notice)

def len : ℕ := n.name.length + n.zeros

def toBytes : List UInt8 :=
  Layout.toBytes n.wd ++
    (Layout.toBytes n.mask ++ (Layout.toBytes n.cookie ++ (Layout.toBytes (BitVec.ofNat 32 n.len) ++
    (n.name ++ List.replicate n.zeros 0))))

/-- What it is read as. -/
def event : InotifyEvent := ⟨n.wd, n.mask, BitVec.ofNat 32 n.len, n.name⟩

theorem length_toBytes : n.toBytes.length = eventSize + n.len := by
  simp only [toBytes, List.length_append, Layout.length_toBytes, List.length_replicate, len, eventSize, Layout.size]
  omega

theorem toNat_len : (BitVec.ofNat 32 n.len).toNat = n.len := by
  have hshort := n.short
  rw [BitVec.toNat_ofNat, Nat.mod_eq_of_lt]
  unfold len
  omega

theorem name_read (rest : List UInt8) : (if BitVec.ofNat 32 n.len ≠ 0 then
    ((n.name ++ List.replicate n.zeros 0) ++ rest).takeWhile fun b : UInt8 => b ≠ 0 else []) = n.name := by
  have hall : ∀ b ∈ n.name, decide (b ≠ 0) = true := by
    intro b hb
    rw [decide_eq_true_iff]
    rintro rfl
    exact n.noNul hb
  by_cases hz : n.zeros = 0
  · have hnil : n.name = [] := by
      by_contra hne
      exact (n.terminated hne).ne' hz
    have hlen : n.len = 0 := by rw [len, hnil, hz]; rfl
    rw [hlen, hnil]
    rfl
  · obtain ⟨k, hk⟩ := Nat.exists_eq_succ_of_ne_zero hz
    have hlen : BitVec.ofNat 32 n.len ≠ 0 := by
      intro h
      have := n.toNat_len
      rw [h, len, hk] at this
      cases this
    rw [if_pos hlen, hk, List.replicate_succ, List.append_assoc, List.takeWhile_append_of_pos hall]
    simp

/-- The loop reads what the kernel has written, whatever stands in front and behind. -/
theorem eventAt_eq (done rest : List UInt8) :
    eventAt (done ++ (n.toBytes ++ rest)) done.length = some (n.event, done.length + n.toBytes.length) := by
  generalize hbuf : done ++ (n.toBytes ++ rest) = buf
  have hwd : buf = done ++ (Layout.toBytes n.wd ++ (Layout.toBytes n.mask ++ (Layout.toBytes n.cookie ++
      (Layout.toBytes (BitVec.ofNat 32 n.len) ++ ((n.name ++ List.replicate n.zeros 0) ++ rest))))) := by
    simp only [← hbuf, toBytes, List.append_assoc]
  have hmask := hwd
  rw [← List.append_assoc] at hmask
  have hcookie := hmask
  rw [← List.append_assoc] at hcookie
  have hlen := hcookie
  rw [← List.append_assoc] at hlen
  have hrest := hlen
  rw [← List.append_assoc] at hrest
  have hsize : Layout.size (BitVec 32) = 4 := rfl
  have hdrop : buf.drop (done.length + 4 + 4 + 4 + 4) = (n.name ++ List.replicate n.zeros 0) ++ rest := by
    rw [hrest, List.drop_append_of_le_length (by simp [hsize]), List.drop_eq_nil_of_le (by simp [hsize]),
      List.nil_append]
  have hend : eventSize + n.len = n.toBytes.length := n.length_toBytes.symm
  simp only [eventAt, Option.bind_eq_bind, getMsgData_eq hwd rfl, Option.bind_some, hsize,
    getMsgData_eq hmask (show done.length + 4 = _ by simp [hsize]),
    getMsgData_eq hcookie (show done.length + 4 + 4 = _ by simp [hsize]),
    getMsgData_eq hlen (show done.length + 4 + 4 + 4 = _ by simp [hsize]), hdrop, n.name_read, n.toNat_len, hend,
    Option.pure_def, event]

/-- There is room for one event at least. -/
theorem length_toBytes_le : n.toBytes.length ≤ bufLen := by
  have hshort := n.short
  have hlen := n.length_toBytes
  have hbuf := bufLen_eq
  unfold len eventSize at hlen
  omega

theorem toBytes_ne_nil : n.toBytes ≠ [] := by
  intro h
  have := n.length_toBytes
  rw [h, List.length_nil, eventSize] at this
  omega

/-- Events are found where they stand in the buffer. -/
theorem laid (ns : List Notice) (rest : List UInt8) :
    Laid (eventAt (ns.flatMap toBytes ++ rest)) 0 (ns.map event) (ns.flatMap toBytes).length := by
  have h := laid_of_encoded (fun (n : Notice) done rest => n.eventAt_eq done rest) toBytes_ne_nil ns [] rest
  simpa only [List.nil_append, List.length_nil, Nat.zero_add] using h

end Notice

/-- Whatever events `read` returns, and whatever the buffer holds behind them: the loop goes through all
of them and no others, and those that trigger a reload are those of the target file. -/
theorem triggered_of_read (filename : CString) (ns : List Notice) (rest : List UInt8) :
    records (eventAt (ns.flatMap Notice.toBytes ++ rest)) (ns.flatMap Notice.toBytes).length
      (ns.flatMap Notice.toBytes).length 0 =
      some (ns.map Notice.event) ∧
    triggered filename (ns.flatMap Notice.toBytes ++ rest) (ns.flatMap Notice.toBytes).length =
      some ((ns.map Notice.event).filter fun event => event.Triggers filename) := by
  have hlaid := Notice.laid ns rest
  have h := records_of_laid hlaid hlaid.length_le
  exact ⟨h, by rw [triggered, h, Option.map_some]⟩

end Gemini.Scheduler.Monitor
