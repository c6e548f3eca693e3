import BootableKernel.Devices.Pic
import BootableKernel.Lib.Priority
import Mathlib.Order.Bounds.Basic

/-!
# Requests and their acknowledgement

What the two controllers do with requests once they are initialised. Each has eight lines
of fixed priority, and the slave's signal is a request on line 2 of the master. The
processor acknowledges the master's signal and receives a vector; a request that was gone
by then is answered with the vector of line 7.

`PIC_send_EOI` ends the service again, at both controllers if the line was one of the slave's.
-/

namespace BootableKernel
namespace Pic

open Priority

/-- The vector of a line: the low three bits of the offset are not used. -/
def Controller.lineVector (c : Controller) (i : Fin 8) : BitVec 8 :=
  c.vector &&& 0xf8 ||| BitVec.ofNat 8 i

/-- The lines whose bit is set in a mask. -/
def maskedLines (mask : BitVec 8) : Finset (Fin 8) :=
  Finset.univ.filter fun i => mask.getLsbD i

/-- The two controllers with their lines. -/
structure Controllers where
  ports : Ports
  master : Lines (Fin 8)
  slave : Lines (Fin 8)

/-- The lines by their number. -/
def masterLine (i : Fin 8) : Fin 16 := ⟨i, by omega⟩

def slaveLine (i : Fin 8) : Fin 16 := ⟨8 + i, by omega⟩

theorem line_cases (n : Fin 16) : (∃ i, n = masterLine i) ∨ ∃ i, n = slaveLine i := by
  by_cases hn : n.val < 8
  · exact Or.inl ⟨⟨n, hn⟩, rfl⟩
  · refine Or.inr ⟨⟨n - 8, by omega⟩, Fin.ext ?_⟩
    simp only [slaveLine]
    omega

namespace Controllers

/-- The requests that are not masked. -/
def masterPending (c : Controllers) : Finset (Fin 8) :=
  c.master.requested \ maskedLines c.ports.master.mask

def slavePending (c : Controllers) : Finset (Fin 8) :=
  c.slave.requested \ maskedLines c.ports.slave.mask

def masterSignal (c : Controllers) : Option (Fin 8) :=
  c.master.signal (maskedLines c.ports.master.mask)

def slaveSignal (c : Controllers) : Option (Fin 8) :=
  c.slave.signal (maskedLines c.ports.slave.mask)

/-- Change the lines of the controller that has the line `n`. -/
def onLine (f : Lines (Fin 8) → Fin 8 → Lines (Fin 8)) (n : Fin 16) (c : Controllers) :
    Controllers :=
  if h : n.val < 8 then { c with master := f c.master ⟨n, h⟩ }
  else { c with slave := f c.slave ⟨n - 8, by omega⟩ }

def request (n : Fin 16) (c : Controllers) : Controllers := c.onLine Lines.request n

def withdraw (n : Fin 16) (c : Controllers) : Controllers := c.onLine Lines.withdraw n

/-- The processor acknowledges an interrupt. A line of the master with a slave is answered
by the slave. -/
def acknowledge (c : Controllers) : BitVec 8 × Controllers :=
  match c.masterSignal with
  | none => (c.ports.master.lineVector 7, c)
  | some i =>
      let c := { c with master := c.master.accept i }
      if c.ports.master.cascade.getLsbD i then
        match c.slaveSignal with
        | none => (c.ports.slave.lineVector 7, c)
        | some j => (c.ports.slave.lineVector j, { c with slave := c.slave.accept j })
      else (c.ports.master.lineVector i, c)

/-- A command that ends a service: neither `ICW1` nor `OCW3`, and no line is named. -/
def endsService (v : BitVec 8) : Bool := v &&& 0xf8 = picEoi

/-- A write to a port, as `Pic.outb`, with the end of a service. -/
def outb (port : BitVec 16) (v : BitVec 8) (c : Controllers) : Controllers :=
  { ports := Pic.outb port v c.ports
    master := if port = pic1Command && endsService v then c.master.finish else c.master
    slave := if port = pic2Command && endsService v then c.slave.finish else c.slave }

def picSendEoi (irqNo : BitVec 32) (c : Controllers) : Controllers :=
  let c := if 8 ≤ irqNo then outb pic2Command picEoi c else c
  outb pic1Command picEoi c

/-! ## Acknowledgement -/

/-- No line is in service. -/
structure Idle (c : Controllers) : Prop where
  master : c.master.inService = ∅
  slave : c.slave.inService = ∅

/-- The line whose vector the processor receives, and what is in service then. -/
inductive Taken (c : Controllers) : Fin 16 → Controllers → Prop
  /-- The first request at the master. -/
  | master (i : Fin 8) (h2 : i ≠ 2) (hi : IsLeast (c.masterPending : Set (Fin 8)) i) :
      Taken c (masterLine i) { c with master := c.master.accept i }
  /-- The first request at the slave, when the slave is first at the master. -/
  | slave (i : Fin 8) (h2 : IsLeast (c.masterPending : Set (Fin 8)) 2)
      (hi : IsLeast (c.slavePending : Set (Fin 8)) i) :
      Taken c (slaveLine i)
        { c with master := c.master.accept 2, slave := c.slave.accept i }
  /-- The master has no request. -/
  | noMaster (h : c.masterPending = ∅) : Taken c (masterLine 7) c
  /-- The slave is first at the master and has no request. -/
  | noSlave (h2 : IsLeast (c.masterPending : Set (Fin 8)) 2) (h : c.slavePending = ∅) :
      Taken c (slaveLine 7) { c with master := c.master.accept 2 }

/-- Both controllers as `PIC_remap(0x20, 0x28)` leaves them. -/
structure Remapped (s : Ports) : Prop where
  master : s.master.Initialised 0x20 4
  slave : s.slave.Initialised 0x28 2

theorem lineVector_master {c : Controller} {v : BitVec 8} (h : c.Initialised 0x20 v) (i : Fin 8) :
    c.lineVector i = BitVec.ofNat 8 (32 + masterLine i) := by
  rw [Controller.lineVector, h.vector]
  revert i
  decide

theorem lineVector_slave {c : Controller} {v : BitVec 8} (h : c.Initialised 0x28 v) (i : Fin 8) :
    c.lineVector i = BitVec.ofNat 8 (32 + slaveLine i) := by
  rw [Controller.lineVector, h.vector]
  revert i
  decide

/-- Only line 2 has a slave. -/
theorem cascade_iff {c : Controller} {v : BitVec 8} (h : c.Initialised v 4) (i : Fin 8) :
    c.cascade.getLsbD i ↔ i = 2 := by
  rw [h.cascade]
  revert i
  decide

theorem signal_eq_some_iff_isLeast {l : Lines (Fin 8)} (h : l.inService = ∅)
    {masked : Finset (Fin 8)} {i : Fin 8} :
    l.signal masked = some i ↔
      IsLeast ((l.requested \ masked : Finset (Fin 8)) : Set (Fin 8)) i := by
  rw [Lines.signal_eq_some_iff h]
  simp only [IsLeast, mem_lowerBounds, Finset.mem_coe, Finset.mem_sdiff]
  grind

theorem signal_eq_none_iff_empty {l : Lines (Fin 8)} (h : l.inService = ∅)
    {masked : Finset (Fin 8)} : l.signal masked = none ↔ l.requested \ masked = ∅ := by
  rw [Lines.signal_eq_none_iff h, Finset.sdiff_eq_empty_iff_subset]

/-- With nothing in service the processor receives the vector of the line that comes first. -/
theorem acknowledge_spec {c : Controllers} (hports : Remapped c.ports) (hidle : c.Idle) :
    ∃ n, c.acknowledge.1 = BitVec.ofNat 8 (32 + n.val) ∧ Taken c n c.acknowledge.2 := by
  rw [acknowledge]
  cases hmaster : c.masterSignal with
  | none =>
      have hnone := (signal_eq_none_iff_empty hidle.master).mp hmaster
      exact ⟨masterLine 7, lineVector_master hports.master 7, .noMaster hnone⟩
  | some i =>
      have hi := (signal_eq_some_iff_isLeast hidle.master).mp hmaster
      have hcascade := cascade_iff hports.master i
      by_cases h2 : i = 2
      · subst h2
        simp only [hcascade.mpr rfl, if_true]
        cases hslave : c.slaveSignal with
        | none =>
            have hnone := (signal_eq_none_iff_empty hidle.slave).mp hslave
            have hslave' : slaveSignal { c with master := c.master.accept 2 } = none := hslave
            rw [hslave']
            exact ⟨slaveLine 7, lineVector_slave hports.slave 7, .noSlave hi hnone⟩
        | some j =>
            have hj := (signal_eq_some_iff_isLeast hidle.slave).mp hslave
            have hslave' : slaveSignal { c with master := c.master.accept 2 } = some j := hslave
            rw [hslave']
            exact ⟨slaveLine j, lineVector_slave hports.slave j, .slave j hi hj⟩
      · simp only [mt hcascade.mp h2]
        exact ⟨masterLine i, lineVector_master hports.master i, .master i h2 hi⟩

theorem onLine_ports (f : Lines (Fin 8) → Fin 8 → Lines (Fin 8)) (n : Fin 16)
    (c : Controllers) : (c.onLine f n).ports = c.ports := by
  rw [onLine]
  split <;> rfl

@[simp] theorem request_ports (n : Fin 16) (c : Controllers) : (c.request n).ports = c.ports :=
  onLine_ports _ n c

@[simp] theorem withdraw_ports (n : Fin 16) (c : Controllers) : (c.withdraw n).ports = c.ports :=
  onLine_ports _ n c

@[simp] theorem acknowledge_ports (c : Controllers) : c.acknowledge.2.ports = c.ports := by
  rw [acknowledge]
  cases c.masterSignal with
  | none => rfl
  | some i =>
      dsimp only
      split
      · split <;> rfl
      · rfl

/-! ## The end of a service -/

/-- What may be in service while the handler of a line runs. -/
inductive Serving (c : Controllers) : Fin 16 → Prop
  | master (i : Fin 8) (hmaster : c.master.inService ⊆ {i}) (hslave : c.slave.inService = ∅) :
      Serving c (masterLine i)
  | slave (i : Fin 8) (hmaster : c.master.inService ⊆ {2}) (hslave : c.slave.inService ⊆ {i}) :
      Serving c (slaveLine i)

theorem Taken.serving {c c' : Controllers} {n : Fin 16} (h : Taken c n c') (hidle : c.Idle) :
    c'.Serving n := by
  cases h with
  | master i => exact .master i (Lines.accept_inService hidle.master).le hidle.slave
  | slave i =>
      exact .slave i (Lines.accept_inService hidle.master).le
        (Lines.accept_inService hidle.slave).le
  | noMaster => exact .master 7 (hidle.master.le.trans (Finset.empty_subset _)) hidle.slave
  | noSlave =>
      exact .slave 7 (Lines.accept_inService hidle.master).le
        (hidle.slave.le.trans (Finset.empty_subset _))

/-- The same lines are in service. -/
structure SameService (c c' : Controllers) : Prop where
  master : c'.master.inService = c.master.inService
  slave : c'.slave.inService = c.slave.inService

theorem SameService.idle {c c' : Controllers} (h : SameService c c') (hidle : c.Idle) : c'.Idle :=
  ⟨h.master.trans hidle.master, h.slave.trans hidle.slave⟩

theorem SameService.serving {c c' : Controllers} {n : Fin 16} (h : SameService c c')
    (hs : c.Serving n) : c'.Serving n := by
  cases hs with
  | master i hmaster hslave => exact .master i (h.master ▸ hmaster) (h.slave.trans hslave)
  | slave i hmaster hslave => exact .slave i (h.master ▸ hmaster) (h.slave ▸ hslave)

theorem request_same (n : Fin 16) (c : Controllers) : SameService c (c.request n) := by
  rw [request, onLine]
  split <;> exact ⟨rfl, rfl⟩

theorem withdraw_same (n : Fin 16) (c : Controllers) : SameService c (c.withdraw n) := by
  rw [withdraw, onLine]
  split <;> exact ⟨rfl, rfl⟩

/-- `PIC_send_EOI` does to the ports what `Pic.picSendEoi` says. -/
@[simp] theorem picSendEoi_ports (n : BitVec 32) (c : Controllers) :
    (c.picSendEoi n).ports = Pic.picSendEoi n c.ports := by
  by_cases hn : 8 ≤ n
  · simp only [picSendEoi, Pic.picSendEoi, if_pos hn, outb]
  · simp only [picSendEoi, Pic.picSendEoi, if_neg hn, outb]

theorem picSendEoi_master (i : Fin 8) (c : Controllers) :
    c.picSendEoi (BitVec.ofNat 32 (masterLine i)) =
      { c with
        ports := Pic.picSendEoi (BitVec.ofNat 32 (masterLine i)) c.ports
        master := c.master.finish } := by
  have hn : ¬ 8 ≤ BitVec.ofNat 32 (masterLine i) := by
    revert i
    decide
  simp only [picSendEoi, Pic.picSendEoi, if_neg hn, outb]
  rfl

theorem picSendEoi_slave (i : Fin 8) (c : Controllers) :
    c.picSendEoi (BitVec.ofNat 32 (slaveLine i)) =
      { ports := Pic.picSendEoi (BitVec.ofNat 32 (slaveLine i)) c.ports
        master := c.master.finish
        slave := c.slave.finish } := by
  have hn : 8 ≤ BitVec.ofNat 32 (slaveLine i) := by
    revert i
    decide
  simp only [picSendEoi, Pic.picSendEoi, if_pos hn, outb]
  rfl

/-- The end of the service that the handler announces is the end of its own. -/
theorem Serving.idle {c : Controllers} {n : Fin 16} (h : c.Serving n) :
    (c.picSendEoi (BitVec.ofNat 32 n)).Idle := by
  cases h with
  | master i hmaster hslave =>
      rw [picSendEoi_master]
      exact ⟨Lines.finish_inService hmaster, hslave⟩
  | slave i hmaster hslave =>
      rw [picSendEoi_slave]
      exact ⟨Lines.finish_inService hmaster, Lines.finish_inService hslave⟩

/-! ## Requests -/

/-- Whether there is a request on a line. -/
def isRequested (n : Fin 16) (c : Controllers) : Bool :=
  if h : n.val < 8 then decide (⟨n, h⟩ ∈ c.master.requested)
  else decide (⟨n - 8, by omega⟩ ∈ c.slave.requested)

@[simp] theorem isRequested_master (i : Fin 8) (c : Controllers) :
    c.isRequested (masterLine i) = decide (i ∈ c.master.requested) := by
  rw [isRequested, dif_pos (show (masterLine i).val < 8 from i.isLt)]
  rfl

@[simp] theorem isRequested_slave (i : Fin 8) (c : Controllers) :
    c.isRequested (slaveLine i) = decide (i ∈ c.slave.requested) := by
  have hn : ¬ (slaveLine i).val < 8 := by
    simp only [slaveLine]
    omega
  have hi : (⟨(slaveLine i).val - 8, by simp only [slaveLine]; omega⟩ : Fin 8) = i := by
    ext
    simp only [slaveLine]
    omega
  rw [isRequested, dif_neg hn, hi]

theorem onLine_master (f : Lines (Fin 8) → Fin 8 → Lines (Fin 8)) (i : Fin 8) (c : Controllers) :
    c.onLine f (masterLine i) = { c with master := f c.master i } := by
  rw [onLine, dif_pos (show (masterLine i).val < 8 from i.isLt)]
  rfl

theorem onLine_slave (f : Lines (Fin 8) → Fin 8 → Lines (Fin 8)) (i : Fin 8) (c : Controllers) :
    c.onLine f (slaveLine i) = { c with slave := f c.slave i } := by
  have hn : ¬ (slaveLine i).val < 8 := by
    simp only [slaveLine]
    omega
  have hi : (⟨(slaveLine i).val - 8, by simp only [slaveLine]; omega⟩ : Fin 8) = i := by
    ext
    simp only [slaveLine]
    omega
  rw [onLine, dif_neg hn, hi]

theorem masterLine_injective : Function.Injective masterLine := by decide

theorem slaveLine_injective : Function.Injective slaveLine := by decide

theorem masterLine_ne_slaveLine : ∀ i j, masterLine i ≠ slaveLine j := by decide

@[simp] theorem isRequested_request (n k : Fin 16) (c : Controllers) :
    (c.request k).isRequested n = (decide (n = k) || c.isRequested n) := by
  rcases line_cases k with ⟨i, rfl⟩ | ⟨i, rfl⟩ <;> rcases line_cases n with ⟨j, rfl⟩ | ⟨j, rfl⟩
  · simp [request, onLine_master, Lines.request, masterLine_injective.eq_iff]
  · simp [request, onLine_master, (masterLine_ne_slaveLine i j).symm]
  · simp [request, onLine_slave, masterLine_ne_slaveLine j i]
  · simp [request, onLine_slave, Lines.request, slaveLine_injective.eq_iff]

@[simp] theorem isRequested_withdraw (n k : Fin 16) (c : Controllers) :
    (c.withdraw k).isRequested n = (!decide (n = k) && c.isRequested n) := by
  rcases line_cases k with ⟨i, rfl⟩ | ⟨i, rfl⟩ <;> rcases line_cases n with ⟨j, rfl⟩ | ⟨j, rfl⟩
  · simp [withdraw, onLine_master, Lines.withdraw, masterLine_injective.eq_iff]
  · simp [withdraw, onLine_master, (masterLine_ne_slaveLine i j).symm]
  · simp [withdraw, onLine_slave, masterLine_ne_slaveLine j i]
  · simp [withdraw, onLine_slave, Lines.withdraw, slaveLine_injective.eq_iff]

/-- The end of a service leaves the requests alone. -/
theorem picSendEoi_requested (k : BitVec 32) (c : Controllers) :
    (c.picSendEoi k).master.requested = c.master.requested ∧
      (c.picSendEoi k).slave.requested = c.slave.requested := by
  have hout : ∀ port v (c : Controllers), (outb port v c).master.requested = c.master.requested ∧
      (outb port v c).slave.requested = c.slave.requested := by
    intro port v c
    simp only [outb]
    constructor <;> split <;> rfl
  obtain ⟨hmaster, hslave⟩ := hout pic2Command picEoi c
  rw [picSendEoi, (hout _ _ _).1, (hout _ _ _).2]
  split
  · exact ⟨hmaster, hslave⟩
  · exact ⟨rfl, rfl⟩

@[simp] theorem isRequested_picSendEoi (n : Fin 16) (k : BitVec 32) (c : Controllers) :
    (c.picSendEoi k).isRequested n = c.isRequested n := by
  obtain ⟨hmaster, hslave⟩ := picSendEoi_requested k c
  simp only [isRequested, hmaster, hslave]

/-- A line that is taken was requested, and is not any more. The exceptions are the two lines
that also stand for requests that are gone. -/
theorem Taken.requested {c c' : Controllers} {k n : Fin 16} (h : Taken c k c')
    (h7 : n ≠ masterLine 7) (h15 : n ≠ slaveLine 7) :
    (if k = n then 1 else 0) + (c'.isRequested n).toNat ≤ (c.isRequested n).toNat := by
  cases h with
  | master i h2 hi =>
      have hreq : i ∈ c.master.requested := (Finset.mem_sdiff.mp hi.1).1
      rcases line_cases n with ⟨j, rfl⟩ | ⟨j, rfl⟩
      · by_cases hij : i = j
        · subst hij
          simp [Lines.accept, hreq]
        · simp [Lines.accept, masterLine_injective.eq_iff, hij, Ne.symm hij]
      · simp [masterLine_ne_slaveLine i j]
  | slave i h2 hi =>
      have hreq : i ∈ c.slave.requested := (Finset.mem_sdiff.mp hi.1).1
      rcases line_cases n with ⟨j, rfl⟩ | ⟨j, rfl⟩
      · by_cases hj : j = 2
        · simp [Lines.accept, hj, (masterLine_ne_slaveLine 2 i).symm]
        · simp [Lines.accept, hj, (masterLine_ne_slaveLine j i).symm]
      · by_cases hij : i = j
        · subst hij
          simp [Lines.accept, hreq]
        · simp [Lines.accept, slaveLine_injective.eq_iff, hij, Ne.symm hij]
  | noMaster h => simp [h7.symm]
  | noSlave h2 h =>
      rcases line_cases n with ⟨j, rfl⟩ | ⟨j, rfl⟩
      · by_cases hj : j = 2
        · simp [Lines.accept, hj, (masterLine_ne_slaveLine 2 7).symm]
        · simp [Lines.accept, hj, (masterLine_ne_slaveLine j 7).symm]
      · simp [h15.symm]

/-- A request stays until its line is taken. -/
theorem Taken.kept {c c' : Controllers} {k n : Fin 16} (h : Taken c k c') (h2 : n ≠ masterLine 2)
    (hn : c.isRequested n) : c'.isRequested n ∨ k = n := by
  cases h with
  | master i _ hi =>
      rcases line_cases n with ⟨j, rfl⟩ | ⟨j, rfl⟩
      · by_cases hij : i = j
        · exact Or.inr (hij ▸ rfl)
        · left
          simpa [Lines.accept, Ne.symm hij] using hn
      · left
        simpa using hn
  | slave i _ hi =>
      rcases line_cases n with ⟨j, rfl⟩ | ⟨j, rfl⟩
      · have hj : j ≠ 2 := fun hj => h2 (hj ▸ rfl)
        left
        simpa [Lines.accept, hj] using hn
      · by_cases hij : i = j
        · exact Or.inr (hij ▸ rfl)
        · left
          simpa [Lines.accept, Ne.symm hij] using hn
  | noMaster h => exact Or.inl hn
  | noSlave _ h =>
      rcases line_cases n with ⟨j, rfl⟩ | ⟨j, rfl⟩
      · have hj : j ≠ 2 := fun hj => h2 (hj ▸ rfl)
        left
        simpa [Lines.accept, hj] using hn
      · left
        simpa using hn

/-- The requests that are left; one of the slave, which the master has not noticed yet, counts
for more than the one it makes there. -/
def backlog (c : Controllers) : ℕ :=
  2 * c.slave.requested.card + 2 * (c.master.requested.erase 2).card +
    if 2 ∈ c.master.requested then 1 else 0

/-- Every request that is left is masked. Those at the slave may also be masked by the bit of
its line at the master. -/
structure Served (c : Controllers) : Prop where
  master : c.masterPending = ∅
  slave : c.slavePending = ∅ ∨ 2 ∈ maskedLines c.ports.master.mask

theorem backlog_congr {c c' : Controllers} (hmaster : c'.master.requested = c.master.requested)
    (hslave : c'.slave.requested = c.slave.requested) : c'.backlog = c.backlog := by
  simp only [backlog, hmaster, hslave]

/-- Only an acknowledgement without a request leaves the backlog as it is. -/
theorem Taken.backlog_lt {c c' : Controllers} {n : Fin 16} (h : Taken c n c')
    (hpending : c.masterPending ≠ ∅) : c'.backlog < c.backlog := by
  have hmem : ∀ i, IsLeast (c.masterPending : Set (Fin 8)) i → i ∈ c.master.requested :=
    fun i hi => (Finset.mem_sdiff.mp hi.1).1
  cases h with
  | master i h2 hi =>
      have hcard : ((c.master.requested.erase i).erase 2).card + 1 =
          (c.master.requested.erase 2).card := by
        rw [Finset.erase_right_comm]
        exact Finset.card_erase_add_one (Finset.mem_erase.mpr ⟨h2, hmem i hi⟩)
      simp only [backlog, Lines.accept, Finset.mem_erase, ne_eq, h2.symm, not_false_eq_true,
        true_and]
      omega
  | slave i h2 hi =>
      have hslave : (c.slave.requested.erase i).card + 1 = c.slave.requested.card :=
        Finset.card_erase_add_one (Finset.mem_sdiff.mp hi.1).1
      simp only [backlog, Lines.accept, Finset.erase_idem, if_pos (hmem 2 h2), Finset.mem_erase,
        ne_eq, not_true_eq_false, false_and, if_false]
      omega
  | noMaster h => exact absurd h hpending
  | noSlave h2 h =>
      simp only [backlog, Lines.accept, Finset.erase_idem, if_pos (hmem 2 h2), Finset.mem_erase,
        ne_eq, not_true_eq_false, false_and, if_false]
      omega

/-- An acknowledgement after a cascade. -/
theorem Taken.backlog_cascade {c c' : Controllers} {n : Fin 16}
    (h : Taken (c.request (masterLine 2)) n c') (h2 : 2 ∉ c.master.requested)
    (hmask : 2 ∉ maskedLines c.ports.master.mask) (hslave : c.slavePending ≠ ∅) :
    c'.backlog < c.backlog := by
  rw [request, onLine_master] at h
  have hrequest : (c.master.request 2).requested = insert 2 c.master.requested := rfl
  cases h with
  | master i hi2 hi =>
      have hi' : i ∈ c.master.requested := by
        have hmem := (Finset.mem_sdiff.mp hi.1).1
        rw [hrequest] at hmem
        exact (Finset.mem_insert.mp hmem).resolve_left hi2
      have hcard : (c.master.requested.erase i).card + 1 = c.master.requested.card :=
        Finset.card_erase_add_one hi'
      have herase : ((insert 2 c.master.requested).erase i).erase 2 =
          c.master.requested.erase i := by
        rw [Finset.erase_right_comm, Finset.erase_insert h2]
      simp only [backlog, Lines.accept, hrequest, herase, Finset.erase_eq_of_notMem h2, if_neg h2]
      split <;> omega
  | slave i _ hi =>
      have hcard : (c.slave.requested.erase i).card + 1 = c.slave.requested.card :=
        Finset.card_erase_add_one (Finset.mem_sdiff.mp hi.1).1
      simp only [backlog, Lines.accept, hrequest, Finset.erase_insert h2,
        Finset.erase_eq_of_notMem h2, if_neg h2]
      omega
  | noMaster h =>
      have hmem : (2 : Fin 8) ∈ insert 2 c.master.requested \ maskedLines c.ports.master.mask :=
        Finset.mem_sdiff.mpr ⟨Finset.mem_insert_self _ _, hmask⟩
      have hempty : insert 2 c.master.requested \ maskedLines c.ports.master.mask = ∅ := h
      rw [hempty] at hmem
      exact absurd hmem (Finset.notMem_empty _)
  | noSlave _ h => exact absurd h hslave

/-- Line 0 is only taken when it is not masked. -/
theorem Taken.masked_zero {c c' : Controllers} (h : Taken c 0 c') :
    Pic.masked c.ports 0 = false := by
  generalize hn : (0 : Fin 16) = n at h
  cases h with
  | master i h2 hi =>
      obtain rfl : (0 : Fin 8) = i := masterLine_injective hn
      have hmask := (Finset.mem_sdiff.mp hi.1).2
      have hzero : Pic.masked c.ports (masterLine 0) = c.ports.master.mask.getLsbD 0 := rfl
      rw [hzero]
      simpa [maskedLines] using hmask
  | slave i h2 hi => exact absurd hn (masterLine_ne_slaveLine 0 i)
  | noMaster h => exact absurd hn (by decide)
  | noSlave h2 h => exact absurd hn (by decide)

/-- The line of the slave is never taken itself. -/
theorem Taken.ne_two {c c' : Controllers} {n : Fin 16} (h : Taken c n c') : n ≠ masterLine 2 := by
  cases h with
  | master i h2 hi => exact fun h => h2 (masterLine_injective h)
  | slave i h2 hi => exact (masterLine_ne_slaveLine 2 i).symm
  | noMaster h => decide
  | noSlave h2 h => decide

end Controllers
end Pic
end BootableKernel
