import LedFirmware.AppFlash
import LedFirmware.FrameConstruct
import Mathlib.Data.Fin.VecNotation
import Mathlib.Data.Fintype.Basic
import Mathlib.Tactic.FinCases

/-!
# Parameters of the application

`param.c` keeps the network addresses and the device parameters in one flash
page, the addresses as half-words and the device record behind them.  A load
first compares the half-word at the start of the page with the marker of the
device record.
-/

namespace LedFirmware.App

open CrashProgram NorFlash

def devAppFirstPowerFlag : UInt16 := 0x4321

/-- The variables `RT_LWIP_IPADDR0` to `RT_LWIP_DNSADDR3`. -/
structure NetParam where
  ipaddr : Fin 4 → UInt8
  mskaddr : Fin 4 → UInt8
  gwaddr : Fin 4 → UInt8
  dnsaddr : Fin 4 → UInt8

/-- The addresses in the order in which they are saved. -/
def NetParam.bytes (net : NetParam) : List UInt8 :=
  List.ofFn net.ipaddr ++ List.ofFn net.mskaddr ++ List.ofFn net.gwaddr ++ List.ofFn net.dnsaddr

/-- The addresses from the half-words of a page. -/
def NetParam.read (stored : Nat → UInt8) : NetParam where
  ipaddr index := stored (2 * index)
  mskaddr index := stored (8 + 2 * index)
  gwaddr index := stored (16 + 2 * index)
  dnsaddr index := stored (24 + 2 * index)

def NetParam.default : NetParam where
  ipaddr := ![192, 168, 1, 100]
  mskaddr := ![255, 255, 255, 0]
  gwaddr := ![192, 168, 1, 1]
  dnsaddr := ![192, 168, 1, 1]

/-- `dev_param_type`: seven bytes, packed. -/
structure DevParam where
  powerFirstFlag : UInt16
  msworkMode : UInt16
  version : UInt16
  analogDialSwitch : UInt8
  deriving DecidableEq

def DevParam.size : Nat := 7

def DevParam.bytes (dev : DevParam) : Nat → UInt8 :=
  bufferOf [lowByte dev.powerFirstFlag, highByte dev.powerFirstFlag, lowByte dev.msworkMode,
    highByte dev.msworkMode, lowByte dev.version, highByte dev.version, dev.analogDialSwitch]

def DevParam.read (stored : Nat → UInt8) : DevParam where
  powerFirstFlag := UInt16.ofNat (field stored 0 2)
  msworkMode := UInt16.ofNat (field stored 2 2)
  version := UInt16.ofNat (field stored 4 2)
  analogDialSwitch := stored 6

def DevParam.default : DevParam where
  powerFirstFlag := devAppFirstPowerFlag
  msworkMode := 0
  version := 0x01
  analogDialSwitch := 0

/-- `realtime_param_type`, which is not saved. -/
structure RealtimeParam where
  voltage : UInt16
  current : UInt16
  heartbeatCount : UInt8
  canDebugFlag : UInt8

def realtimeParamInit : RealtimeParam := ⟨0, 0, 0, 0⟩

/-- What a load leaves in the variables, and whether it has restored the factory
defaults. -/
structure Loaded where
  net : NetParam
  dev : DevParam
  iapParam : IapParam
  realtime : RealtimeParam
  defaulted : Bool

section Routines

variable (chip : Chip)

/-- Program bytes as half-words, whatever the single operations return. -/
def programBytes : List UInt8 → (addr : Nat) → FlashProg chip.geometry Unit
  | [], _ => .done ()
  | byte :: later, addr => program _ addr byte 0 >>= fun _ => programBytes later (addr + 2)

def stm32ParamSave (net : NetParam) (dev : DevParam) : FlashProg chip.geometry Unit :=
  setLock _ false >>= fun _ =>
  erase _ chip.addrAppParam >>= fun _ =>
  programBytes chip net.bytes chip.addrAppParam >>= fun _ =>
  flashWrite chip (chip.addrAppParam + 32) dev.bytes DevParam.size >>= fun _ => setLock _ true

def stm32ParamDefault : FlashProg chip.geometry (NetParam × DevParam) :=
  stm32ParamSave chip .default .default >>= fun _ => .done (.default, .default)

/-- The device ID is set by board macros of which the projects define none. -/
def stm32ParamLoad : FlashProg chip.geometry Loaded :=
  flashRead chip chip.addrAppParam >>= fun marker =>
  let powerFirstFlag := UInt16.ofNat (field marker 0 2)
  (if powerFirstFlag ≠ devAppFirstPowerFlag then stm32ParamDefault chip >>= fun _ => .done ()
    else .done ()) >>= fun _ =>
  flashRead chip chip.addrAppParam >>= fun stored =>
  iapParamLoad chip >>= fun iapParam =>
  .done { net := NetParam.read stored
          dev := DevParam.read (bytesFrom stored 32)
          iapParam
          realtime := realtimeParamInit
          defaulted := powerFirstFlag ≠ devAppFirstPowerFlag }

/-- Saved parameters come back from the next load, without a fallback to the
factory defaults. -/
def Persists (net : NetParam) (dev : DevParam) (state : State) : Prop :=
  ∀ schedule : FlashSchedule, Schedule.Within (D := flash chip.geometry) Reliable schedule →
    Schedule.Powered (D := flash chip.geometry) schedule → ∃ loaded after rest,
    Prog.run (stm32ParamSave chip net dev >>= fun _ => stm32ParamLoad chip) schedule state =
      .done loaded after rest ∧
    loaded.net = net ∧ loaded.dev = dev ∧ loaded.defaulted = false

end Routines

variable {chip : Chip} {mem : Mem} {locked : Bool} {net : NetParam} {dev : DevParam}

/-! ## Records -/

theorem halfBytes (number : UInt16) :
    (lowByte number).toNat + 256 * (highByte number).toNat = number.toNat := by
  have bound := number.toNat_lt
  rw [lowByte, highByte, UInt16.toNat_toUInt8, UInt16.toNat_toUInt8, UInt16.toNat_shiftRight,
    Nat.shiftRight_eq_div_pow]
  simp only [UInt16.toNat_ofNat, Nat.reduceMod, Nat.reducePow]
  omega

/-- A half-word is read back from its two bytes. -/
theorem field_half {stored : Nat → UInt8} {offset : Nat} {number : UInt16}
    (low : stored offset = lowByte number) (high : stored (offset + 1) = highByte number) :
    UInt16.ofNat (field stored offset 2) = number := by
  have value : field stored offset 2 = number.toNat := by
    rw [← halfBytes number, field]
    simp only [LittleEndian.value, Nat.add_zero, Nat.zero_add, low, high, Nat.mul_zero]
  rw [value, UInt16.ofNat_toNat]

theorem DevParam.read_bytes {stored : Nat → UInt8}
    (same : ∀ index < DevParam.size, stored index = dev.bytes index) :
    DevParam.read stored = dev := by
  rw [DevParam.read, field_half (same 0 (by decide)) (same 1 (by decide)),
    field_half (same 2 (by decide)) (same 3 (by decide)),
    field_half (same 4 (by decide)) (same 5 (by decide)), same 6 (by decide)]
  rfl

theorem bytesFrom_bytesAt (mem : Mem) (addr offset : Nat) :
    bytesFrom (bytesAt mem addr) offset = bytesAt mem (addr + offset) := by
  funext index
  rw [bytesFrom, bytesAt, bytesAt, Nat.add_assoc]

/-- The half-words in which bytes are stored. -/
def halfWords (bytes : List UInt8) : Nat → UInt8 :=
  fun index => if index % 2 = 0 then bufferOf bytes (index / 2) else 0

theorem NetParam.bytes_length (net : NetParam) : net.bytes.length = 16 := by
  simp [NetParam.bytes]

theorem NetParam.read_halfWords {stored : Nat → UInt8}
    (same : ∀ index < 32, stored index = halfWords net.bytes index) :
    NetParam.read stored = net := by
  have even (index : Nat) (inside : index < 16) :
      stored (2 * index) = bufferOf net.bytes index := by
    rw [same _ (by omega), halfWords, if_pos (by omega), Nat.mul_div_cancel_left _ (by omega)]
  have four (offset : Nat) (fits : offset + 4 ≤ 16) (part : Fin 4 → UInt8)
      (bytes : ∀ index : Fin 4, bufferOf net.bytes (offset + index) = part index) :
      (fun index : Fin 4 => stored (2 * offset + 2 * index)) = part := by
    funext index
    have inside := index.isLt
    rw [← Nat.mul_add, even _ (by omega), bytes]
  have ipaddr := four 0 (by omega) net.ipaddr fun index => by
    fin_cases index <;> rfl
  have mskaddr := four 4 (by omega) net.mskaddr fun index => by
    fin_cases index <;> rfl
  have gwaddr := four 8 (by omega) net.gwaddr fun index => by
    fin_cases index <;> rfl
  have dnsaddr := four 12 (by omega) net.dnsaddr fun index => by
    fin_cases index <;> rfl
  simp only [Nat.reduceMul, Nat.zero_add] at ipaddr mskaddr gwaddr dnsaddr
  rw [NetParam.read, ipaddr, mskaddr, gwaddr, dnsaddr]

/-! ## Save and load -/

theorem halts_programBytes (bytes : List UInt8) (addr : Nat) :
    (programBytes chip bytes addr).Halts := by
  induction bytes generalizing addr with
  | nil => trivial
  | cons byte later ih => exact Prog.halts_bind (fun _ => trivial) fun _ => ih _

theorem halts_stm32ParamSave (net : NetParam) (dev : DevParam) :
    (stm32ParamSave chip net dev).Halts := by
  unfold stm32ParamSave
  refine Prog.halts_bind (fun _ => trivial) fun _ => ?_
  refine Prog.halts_bind (fun _ => trivial) fun _ => ?_
  refine Prog.halts_bind (halts_programBytes _ _) fun _ => ?_
  exact Prog.halts_bind halts_flashWriteBy fun _ _ => trivial

theorem halts_stm32ParamDefault : (stm32ParamDefault chip).Halts :=
  Prog.halts_bind (halts_stm32ParamSave _ _) fun _ => trivial

theorem ends_programBytes {bytes : List UInt8} {addr : Nat} (even : addr % 2 = 0)
    (covers : chip.geometry.Covers addr (2 * bytes.length))
    (erased : ∀ index < 2 * bytes.length, mem (addr + index) = erasedByte) :
    Ends (programBytes chip bytes addr) mem false ()
      (overlay addr (2 * bytes.length) (halfWords bytes) mem) false := by
  induction bytes generalizing addr mem with
  | nil => simpa [programBytes] using Ends.done ()
  | cons byte later ih =>
      obtain ⟨lower, upper⟩ := covers
      rw [List.length_cons] at upper erased ⊢
      have first := @Ends.program_source chip.geometry mem addr (halfWords (byte :: later))
        ⟨lower, by omega⟩ ⟨by omega, by omega⟩ even (erased 0 (by omega)) (erased 1 (by omega))
      have rest := @ih (overlay addr 2 (halfWords (byte :: later)) mem) (addr + 2) (by omega)
        ⟨by omega, by omega⟩ fun index inside => by
          rw [overlay_outside _ _ (by omega), Nat.add_assoc]
          exact erased _ (by omega)
      have shifted : halfWords later = fun index => halfWords (byte :: later) (2 + index) := by
        funext index
        rw [halfWords, halfWords, Nat.add_mod_left, Nat.add_div_left _ (by omega)]
        rfl
      rw [shifted, overlay_append, show 2 + 2 * later.length = 2 * (later.length + 1) by omega]
        at rest
      exact first.bind rest

/-- The memory after a save. -/
def savedMem (chip : Chip) (net : NetParam) (dev : DevParam) (mem : Mem) : Mem :=
  overlay (chip.addrAppParam + 32) DevParam.size dev.bytes
    (overlay chip.addrAppParam 32 (halfWords net.bytes)
      (overlay chip.addrAppParam flashPageSize (fun _ => erasedByte) mem))

theorem ends_stm32ParamSave (net : NetParam) (dev : DevParam) (locked : Bool) :
    Ends (stm32ParamSave chip net dev) mem locked () (savedMem chip net dev mem) true := by
  have page : flashPageSize = 2048 := rfl
  have aligned : chip.addrAppParam % flashPageSize = 0 := pageFromEnd_aligned chip 3
  obtain ⟨lower, upper⟩ : chip.geometry.Covers chip.addrAppParam flashPageSize :=
    covers_pageFromEnd chip (by omega) (by omega)
  have erased := @Ends.erase_page chip.geometry mem chip.addrAppParam (page_positive chip) aligned
    ⟨lower, by omega⟩
  have length := net.bytes_length
  have addresses := @ends_programBytes chip
    (overlay chip.addrAppParam flashPageSize (fun _ => erasedByte) mem) net.bytes
    chip.addrAppParam (addr_even aligned) ⟨lower, by omega⟩
    fun index inside => overlay_inside _ _ (by omega) (by omega)
  rw [length] at addresses
  have unit : roundUp (2 * 2) DevParam.size = 8 := by decide
  have words : (chip.addrAppParam + 32) % (2 * 2) = 0 := by
    rw [page] at aligned
    omega
  have record := @ends_flashWriteBy chip.geometry 2 (chip.addrAppParam + 32) DevParam.size
    dev.bytes (overlay chip.addrAppParam 32 (halfWords net.bytes)
      (overlay chip.addrAppParam flashPageSize (fun _ => erasedByte) mem)) (by omega) words
    ⟨by omega, by rw [unit]; omega⟩ (fun index inside => by
      rw [unit] at inside
      rw [overlay_outside _ _ (by omega), overlay_inside _ _ (by omega) (by omega)]) false
  exact (Ends.setLock false).bind (erased.bind (addresses.bind (record.bind (Ends.setLock true))))

theorem savedMem_net : NetParam.read (bytesAt (savedMem chip net dev mem) chip.addrAppParam) =
    net := by
  refine NetParam.read_halfWords fun index inside => ?_
  rw [bytesAt, savedMem, overlay_outside _ _ (by omega), overlay_inside _ _ (by omega) (by omega),
    Nat.add_sub_cancel_left]

theorem savedMem_dev :
    DevParam.read (bytesFrom (bytesAt (savedMem chip net dev mem) chip.addrAppParam) 32) = dev := by
  rw [bytesFrom_bytesAt]
  refine DevParam.read_bytes fun index inside => ?_
  rw [bytesAt, savedMem, overlay_inside _ _ (by omega) (by omega), Nat.add_sub_cancel_left]

/-- No address byte makes the marker. -/
theorem marker_ne {page : Nat → UInt8} (high : page 1 = 0) :
    UInt16.ofNat (field page 0 2) ≠ devAppFirstPowerFlag := by
  have value : field page 0 2 = (page 0).toNat := by
    simp only [field, LittleEndian.value, Nat.add_zero, Nat.zero_add, high, UInt8.toNat_zero,
      Nat.mul_zero]
  have small := (page 0).toNat_lt
  have flag : devAppFirstPowerFlag.toNat = 0x4321 := rfl
  intro marker
  have numbers := congrArg UInt16.toNat marker
  rw [value, UInt16.toNat_ofNat'] at numbers
  omega

/-- The half-word that a load takes for the marker is the first byte of the IP
address. -/
theorem savedMem_marker : UInt16.ofNat
    (field (bytesAt (savedMem chip net dev mem) chip.addrAppParam) 0 2) ≠
      devAppFirstPowerFlag := by
  refine marker_ne ?_
  rw [bytesAt, savedMem, overlay_outside _ _ (by omega), overlay_inside _ _ (by omega) (by omega),
    Nat.add_sub_cancel_left, halfWords, if_neg (by omega)]

/-- After a save the next load restores and loads the factory defaults. -/
theorem ends_save_load (net : NetParam) (dev : DevParam) : ∃ loaded after closed,
    Ends (stm32ParamSave chip net dev >>= fun _ => stm32ParamLoad chip) mem locked loaded after
        closed ∧
      loaded.net = .default ∧ loaded.dev = .default ∧ loaded.defaulted = true := by
  have reads (contents : Mem) (closed : Bool) :=
    (@returns_flashRead chip contents chip.addrAppParam).ends closed
  have save := @ends_stm32ParamSave chip mem net dev locked
  have defaults : Ends (stm32ParamDefault chip) (savedMem chip net dev mem) true
      (NetParam.default, DevParam.default)
      (savedMem chip .default .default (savedMem chip net dev mem)) true :=
    (ends_stm32ParamSave NetParam.default DevParam.default true).bind (.done _)
  obtain ⟨iapParam, after, closed, iap, -⟩ := @ends_iapParamLoad chip
    (savedMem chip .default .default (savedMem chip net dev mem)) true
  refine ⟨⟨.default, .default, iapParam, realtimeParamInit, true⟩, after, closed,
    save.bind ((reads _ true).bind ?_), rfl, rfl, rfl⟩
  simp only [savedMem_marker, if_true, ne_eq, not_false_eq_true, decide_true]
  refine (defaults.bind (.done ())).bind ((reads _ true).bind (iap.bind ?_))
  rw [savedMem_net, savedMem_dev]
  exact .done _

theorem run_save_load (net : NetParam) (dev : DevParam) (state : State)
    {schedule : FlashSchedule}
    (within : Schedule.Within (D := flash chip.geometry) Reliable schedule)
    (powered : Schedule.Powered (D := flash chip.geometry) schedule) : ∃ loaded after rest,
    Prog.run (stm32ParamSave chip net dev >>= fun _ => stm32ParamLoad chip) schedule state =
      .done loaded after rest ∧
    loaded.net = .default ∧ loaded.dev = .default ∧ loaded.defaulted = true := by
  obtain ⟨loaded, after, closed, ends, defaults⟩ :=
    @ends_save_load chip state.mem state.locked net dev
  obtain ⟨log, used, run⟩ := ends.run state.log within powered
  exact ⟨loaded, _, _, run, defaults⟩

/-- No saved parameters come back: every load restores the factory defaults. -/
theorem not_persists (chip : Chip) (net : NetParam) (dev : DevParam) (state : State) :
    ¬ Persists chip net dev state := by
  intro persists
  obtain ⟨loaded, after, rest, run, -, -, defaulted⟩ :=
    @run_save_load chip net dev state faultless faultless_within faultless_powered
  obtain ⟨found, final, unused, same, -, -, kept⟩ :=
    persists faultless faultless_within faultless_powered
  rw [run] at same
  cases same
  rw [defaulted] at kept
  cases kept

/-- An address other than the default one, with a slave in third version. -/
def savedNet : NetParam := { NetParam.default with ipaddr := ![10, 0, 0, 7] }

def savedDev : DevParam := ⟨devAppFirstPowerFlag, 1, 3, 1⟩

theorem savedNet_not_persists :
    ¬ Persists sampleChip savedNet savedDev ⟨fun _ => erasedByte, true, []⟩ := by
  intro persists
  obtain ⟨loaded, after, rest, run, -, device, -⟩ :=
    @run_save_load sampleChip savedNet savedDev ⟨fun _ => erasedByte, true, []⟩ faultless
      faultless_within faultless_powered
  obtain ⟨found, final, unused, same, -, saved, -⟩ :=
    persists faultless faultless_within faultless_powered
  rw [run] at same
  cases same
  rw [device] at saved
  revert saved
  decide

end LedFirmware.App
