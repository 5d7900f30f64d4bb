import LedFirmware.AppStart

/-!
# The start frame on both paths

The CAN and the UART handler of the application store the same header for the same
values up to its version, which the CAN handler reads with the low byte first and the
UART handler with the high byte first.
-/

namespace LedFirmware.App

open CrashProgram NorFlash

variable {chip : Chip} {port : Port} {size : Nat} {canFrame uartFrame frame stack : Nat → UInt8}
  {mem after : Mem}

/-- The frames carry the same 26 bytes of header values. -/
def SameValues (canFrame uartFrame : Nat → UInt8) : Prop :=
  ∀ index < 26, canFrame (Port.can.headerOffset + index) =
    uartFrame (Port.uart.headerOffset + index)

/-- On an erased info page the whole header is stored. -/
theorem StartEffect.header_stored
    (effect : StartEffect chip size (port.header frame stack) mem after)
    (blank : ∀ index < flashPageSize, mem (chip.addrAppInfo + index) = erasedByte)
    {index : Nat} (inside : index < 26) :
    after (chip.addrAppInfo + index) = port.headerBytes frame index := by
  have large : 28 ≤ flashPageSize := by decide
  exact (effect.header_iff inside).mpr (Or.inr fun offset bound => blank offset (by omega))

/-- The CAN handler stores the two bytes of the version as they were sent. -/
theorem headerBytes_can {index : Nat} : Port.can.headerBytes canFrame index =
    canFrame (Port.can.headerOffset + index) := by
  rw [Port.headerBytes]
  split
  · rename_i first
    exact LittleEndian.byte_value _ first
  · rfl

/-- The UART handler stores them in the opposite order. -/
theorem headerBytes_uart {index : Nat} : Port.uart.headerBytes uartFrame index =
    if index < 2 then uartFrame (Port.uart.headerOffset + (1 - index))
    else uartFrame (Port.uart.headerOffset + index) := by
  rw [Port.headerBytes]
  split
  · rename_i first
    have low := (uartFrame 7).toNat_lt
    have swapped : (uartFrame 6).toNat * 256 + (uartFrame 7).toNat =
        LittleEndian.value 2 fun index => uartFrame (6 + (1 - index)) := by
      simp only [LittleEndian.value, Nat.sub_zero, Nat.zero_add, Nat.sub_self, Nat.add_zero,
        Nat.reduceAdd, Nat.mul_zero]
      omega
    rw [Port.version, swapped]
    exact LittleEndian.byte_value _ first
  · rfl

theorem headerBytes_agree_iff (same : SameValues canFrame uartFrame) :
    (∀ index < 26, Port.can.headerBytes canFrame index = Port.uart.headerBytes uartFrame index) ↔
      canFrame 8 = canFrame 9 := by
  have low : canFrame 8 = uartFrame 6 := same 0 (by omega)
  have high : canFrame 9 = uartFrame 7 := same 1 (by omega)
  constructor
  · intro agree
    have first := agree 0 (by omega)
    rw [headerBytes_can, headerBytes_uart, if_pos (by omega)] at first
    rw [high]
    exact first
  · intro equal index inside
    rw [headerBytes_can, headerBytes_uart, same index inside]
    split
    · rename_i first
      have cases : index = 0 ∨ index = 1 := by omega
      rcases cases with rfl | rfl
      · exact low.symm.trans (equal.trans high)
      · exact high.symm.trans (equal.symm.trans low)
    · rfl

/-- From erased info pages, a start frame on the CAN bus and one with the same values on the
UART store the same header exactly if the two bytes of the version are equal. -/
theorem start_paths_agree_iff (chip : Chip) (canFuel uartFuel : Nat) (canRam uartRam : Ram)
    (canStack uartStack canBuf uartBuf : Nat → UInt8)
    (canLen i canDataLen uartLen j uartDataLen : Nat)
    (canAccepts : Port.can.protocol.Accepts canFuel canBuf canLen i canDataLen)
    (canAddressed : Port.can.protocol.bus.Addressed canRam.iapParam.id (bytesFrom canBuf i))
    (canStart : bytesFrom canBuf i 3 = Port.can.protocol.bus.startCode)
    (uartAccepts : Port.uart.protocol.Accepts uartFuel uartBuf uartLen j uartDataLen)
    (uartStart : bytesFrom uartBuf j 3 = Port.uart.protocol.bus.startCode)
    (same : SameValues (bytesFrom canBuf i) (bytesFrom uartBuf j)) (canState uartState : State)
    (canBlank : ∀ index < flashPageSize, canState.mem (chip.addrAppInfo + index) = erasedByte)
    (uartBlank : ∀ index < flashPageSize, uartState.mem (chip.addrAppInfo + index) = erasedByte) :
    Ensures (protocolAnylise chip .can canFuel canRam canStack canBuf canLen) canState
        (fun _ canAfter =>
          Ensures (protocolAnylise chip .uart uartFuel uartRam uartStack uartBuf uartLen) uartState
            fun _ uartAfter => ∀ index < 26,
              canAfter (chip.addrAppInfo + index) = uartAfter (chip.addrAppInfo + index)) ↔
      bytesFrom canBuf i 8 = bytesFrom canBuf i 9 := by
  obtain ⟨canHandled, canAfter, canClosed, canEnds, canEffect⟩ :=
    @ends_start chip .can canFuel canLen i canDataLen canRam canStack canBuf canAccepts
      canAddressed canStart canState.mem canState.locked
  obtain ⟨uartHandled, uartAfter, uartClosed, uartEnds, uartEffect⟩ :=
    @ends_start chip .uart uartFuel uartLen j uartDataLen uartRam uartStack uartBuf uartAccepts
      trivial uartStart uartState.mem uartState.locked
  rw [canEnds.ensures_iff canState.log, uartEnds.ensures_iff uartState.log,
    ← headerBytes_agree_iff same]
  refine forall₂_congr fun index inside => ?_
  rw [canEffect.header_stored canBlank inside, uartEffect.header_stored uartBlank inside]

/-- The values of the sample frame in a frame for the UART. -/
def uartStartFrame : List UInt8 :=
  construct 0xE0 [0xFF, 0xFF, 1, 0, 0, 0, 8, 0, 0, 0, 8, 0, 0xC5, 0x88, 0xCA, 0x3F,
    8, 0, 0, 0, 1, 0, 8, 0, 0xC5, 0x88, 0xCA, 0x3F]

theorem uartStartFrame_accepts :
    Port.uart.protocol.Accepts 1 (bufferOf uartStartFrame) 34 0 34 := by
  constructor
  · decide
  · decide +kernel

theorem startFrames_same :
    SameValues (bytesFrom (bufferOf startFrame) 0) (bytesFrom (bufferOf uartStartFrame) 0) := by
  unfold SameValues
  decide +kernel

theorem start_paths_agree_sample :
    Ensures (protocolAnylise sampleChip .can 1 sampleRam (fun _ => 0) (bufferOf startFrame) 36)
        ⟨erasedFlash, true, []⟩ (fun _ canAfter =>
          Ensures (protocolAnylise sampleChip .uart 1 sampleRam (fun _ => 0)
              (bufferOf uartStartFrame) 34) ⟨erasedFlash, true, []⟩
            fun _ uartAfter => ∀ index < 26, canAfter (sampleChip.addrAppInfo + index) =
              uartAfter (sampleChip.addrAppInfo + index)) ↔
      bytesFrom (bufferOf startFrame) 0 8 = bytesFrom (bufferOf startFrame) 0 9 :=
  start_paths_agree_iff sampleChip 1 1 sampleRam sampleRam (fun _ => 0) (fun _ => 0)
    (bufferOf startFrame) (bufferOf uartStartFrame) 36 0 36 34 0 34 startFrame_accepts
    (Or.inr rfl) rfl uartStartFrame_accepts rfl startFrames_same ⟨erasedFlash, true, []⟩
    ⟨erasedFlash, true, []⟩ (fun _ _ => rfl) fun _ _ => rfl

/-- Version 1 is stored as 1 by one path and as 256 by the other. -/
theorem start_paths_disagree :
    ¬ Ensures (protocolAnylise sampleChip .can 1 sampleRam (fun _ => 0) (bufferOf startFrame) 36)
        ⟨erasedFlash, true, []⟩ fun _ canAfter =>
          Ensures (protocolAnylise sampleChip .uart 1 sampleRam (fun _ => 0)
              (bufferOf uartStartFrame) 34) ⟨erasedFlash, true, []⟩
            fun _ uartAfter => ∀ index < 26, canAfter (sampleChip.addrAppInfo + index) =
              uartAfter (sampleChip.addrAppInfo + index) := by
  obtain ⟨canHandled, canAfter, canClosed, canEnds, canEffect⟩ :=
    @ends_start sampleChip .can 1 36 0 36 sampleRam (fun _ => 0) (bufferOf startFrame)
      startFrame_accepts (Or.inr rfl) rfl erasedFlash true
  obtain ⟨uartHandled, uartAfter, uartClosed, uartEnds, uartEffect⟩ :=
    @ends_start sampleChip .uart 1 34 0 34 sampleRam (fun _ => 0) (bufferOf uartStartFrame)
      uartStartFrame_accepts trivial rfl erasedFlash true
  rw [canEnds.ensures_iff, uartEnds.ensures_iff]
  intro agree
  have first := agree 0 (by omega)
  rw [canEffect.header_stored (fun _ _ => rfl) (by omega),
    uartEffect.header_stored (fun _ _ => rfl) (by omega)] at first
  revert first
  decide +kernel

end LedFirmware.App
