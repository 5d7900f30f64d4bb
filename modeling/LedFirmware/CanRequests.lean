import LedFirmware.CommDev
import LedFirmware.ForeignFrames

/-!
# Requests on the CAN bus and their replies

Both CAN handlers answer every command that is addressed to the device with one
frame to the remote ID they have taken from the request.  The reply matches the
request unless the command is an automatic check, whose constructor carries another
code, or the bootloader has taken a wrong remote ID.
-/

namespace LedFirmware

open CrashProgram NorFlash

namespace CanCommand

/-- The code that the constructor of the reply writes. -/
def sentCode : CanCommand → UInt8
  | .otaStart => 0x81
  | .otaUpdate => 0x82
  | .otaEnd => 0x83
  | .automaticCheck => 0xB1
  | command => command.code

end CanCommand

/-- The code that the protocol pairs with a request: an update request is answered
with the high bit set, every other one with its own code. -/
def replyCode (code : UInt8) : UInt8 :=
  if code = 0x01 ∨ code = 0x02 ∨ code = 0x03 then code ||| 0x80 else code

/-- The only reply with another code is the one to an automatic check. -/
theorem sentCode_eq_iff {command : CanCommand} :
    command.sentCode = replyCode command.code ↔ command ≠ .automaticCheck := by
  cases command <;> decide

/-- A well-formed reply from the device `own` to the device that the request comes
from, with the code that belongs to the request. -/
structure MatchesRequest (protocol : Protocol) (own : UInt16) (request : Nat → UInt8)
    (reply : List UInt8) : Prop where
  isFrame : IsFrame protocol reply
  destination : half (bufferOf reply) 4 = half request 6
  source : half (bufferOf reply) 6 = own
  code : bufferOf reply 3 = replyCode (request 3)

/-- The frame that a constructor builds with two IDs in front of its data. -/
def addressedFrame (code : UInt8) (remote own : UInt16) (data : List UInt8) : List UInt8 :=
  construct code (lowByte remote :: highByte remote :: lowByte own :: highByte own :: data)

/-- The frames that are sent: one reply with the code of the command. -/
def SendsReply (command : CanCommand) (remote own : UInt16) (sent : List (List UInt8)) : Prop :=
  ∃ data : List UInt8, data.length ≤ 22 ∧
    sent = [addressedFrame command.sentCode remote own data]

variable {protocol : Protocol} {command : CanCommand} {remote own : UInt16}
  {request : Nat → UInt8} {data : List UInt8} {sent : List (List UInt8)}

theorem isFrame_addressedFrame (code : UInt8) (short : data.length ≤ 22)
    (room : 32 ≤ protocol.maxLen) : IsFrame protocol (addressedFrame code remote own data) := by
  apply (isFrame_construct _ _ ?_ ?_).1
  · simp only [List.length_cons]
    omega
  · simp only [List.length_cons]
    omega

/-- The reply to the device that the handler takes for the sender matches if both the
code and that device are right. -/
theorem matchesRequest_iff (short : data.length ≤ 22) (room : 32 ≤ protocol.maxLen)
    (code : request 3 = command.code) :
    MatchesRequest protocol own request (addressedFrame command.sentCode remote own data) ↔
      command ≠ .automaticCheck ∧ remote = half request 6 := by
  have destination :
      half (bufferOf (addressedFrame command.sentCode remote own data)) 4 = remote :=
    App.field_half rfl rfl
  have source : half (bufferOf (addressedFrame command.sentCode remote own data)) 6 = own :=
    App.field_half rfl rfl
  rw [← sentCode_eq_iff, ← code]
  constructor
  · intro reply
    exact ⟨reply.code, destination.symm.trans reply.destination⟩
  · rintro ⟨paired, same⟩
    exact ⟨isFrame_addressedFrame _ short room, destination.trans same, source, paired⟩

/-! ## What the handlers send -/

namespace CanFirmware

/-- The ID of the device when it replies.  A command that sets the ID does so before the
reply, the one that restores the defaults (0xA5) after it. -/
def replyingID (firmware : CanFirmware) (code : UInt8) (before after : firmware.protocol.Ram) :
    UInt16 := firmware.protocol.ownID (if code = 0xA5 then before else after)

/-- With power, whatever fails in the flash, the handler ends and has sent exactly one
reply, which matches the request. -/
def Replies (firmware : CanFirmware) (chip : Chip) (fuel : Nat) (ram : firmware.protocol.Ram)
    (stack buf : Nat → UInt8) (len : Nat) (request : Nat → UInt8) : Prop :=
  ∀ (schedule : FlashSchedule) (state : State),
    Schedule.Powered (D := flash chip.geometry) schedule → ∃ response after rest reply,
    Prog.run (firmware.protocol.handle chip fuel ram stack buf len) schedule state =
        .done response after rest ∧
      response.sent = [reply] ∧
      MatchesRequest firmware.protocol (firmware.replyingID (request 3) ram response.ram) request
        reply

end CanFirmware

-- From here on the commands are followed by rules only: evaluating them would compare
-- addresses and sizes bit by bit.
attribute [local irreducible] Prog.Halts Prog.Yields

variable {chip : Chip} {stack buf : Nat → UInt8} {i dataLen : Nat} {info : DelInfo}

theorem sendsReply_canConstruct {ram : IapRam} (short : data.length ≤ 22)
    (destination : ram.iapParam.remoteID = remote) (source : ram.iapParam.id = own) :
    SendsReply command remote own [canConstruct ram command.sentCode data] := by
  subst destination source
  exact ⟨data, short, rfl⟩

theorem setSearchedID_remoteID {param : IapParam} {frame : Nat → UInt8} :
    (setSearchedID param frame).remoteID = param.remoteID := by
  unfold setSearchedID
  split <;> rfl

theorem chipIDBytes_length (ram : IapRam) : (chipIDBytes ram).length = 12 := rfl

/-- What the handler of the bootloader sends for a command. -/
theorem canExecute_sends {ram : IapRam}
    (addressed : IapPort.can.Addressed ram.iapParam.id (bytesFrom buf i))
    (decoded : CanCommand.decode (bytesFrom buf i 3) = some command) :
    (canExecute chip ram buf i dataLen info).Yields fun handled =>
      SendsReply command (CanFirmware.iap.readRemoteID (bytesFrom buf i))
        (if command = .paramsetDefault then ram.iapParam.id else handled.ram.iapParam.id)
        handled.sent := by
  unfold canExecute
  rw [if_neg (not_foreign addressed)]
  simp only [decoded]
  cases command with
  | otaStart =>
      apply Prog.yields_after _ fun _ => Prog.yields_after _ fun _ => Prog.yields_done ?_
      exact sendsReply_canConstruct (by simp) rfl rfl
  | otaUpdate =>
      apply Prog.yields_after _ fun _ => Prog.yields_done ?_
      exact sendsReply_canConstruct (by simp) rfl rfl
  | otaEnd =>
      apply Prog.yields_after _ fun _ => Prog.yields_done ?_
      exact sendsReply_canConstruct (by simp) rfl rfl
  | paramsetRead => exact Prog.yields_done (sendsReply_canConstruct (by simp) rfl rfl)
  | paramsetWrite => exact Prog.yields_done (sendsReply_canConstruct (by simp) rfl rfl)
  | paramsetSave =>
      apply Prog.yields_after _ fun _ => Prog.yields_done ?_
      exact sendsReply_canConstruct (by simp) rfl rfl
  | deviceRestart => exact Prog.yields_done (sendsReply_canConstruct (by simp) rfl rfl)
  | paramsetDefault =>
      apply Prog.yields_after _ fun _ => Prog.yields_done ?_
      exact sendsReply_canConstruct (by simp) rfl rfl
  | deviceSearch =>
      apply Prog.yields_done
      exact sendsReply_canConstruct (by simp [chipIDBytes_length]) rfl rfl
  | deviceParamsetSearch =>
      apply Prog.yields_done
      exact sendsReply_canConstruct (by simp) setSearchedID_remoteID rfl
  | automaticCheck => exact Prog.yields_done (sendsReply_canConstruct (by simp) rfl rfl)

theorem halts_writePiece {progress : OtaProgress} {piece : Nat → UInt8} {accepts : Bool}
    {length : Nat} : (writePiece chip progress piece accepts length).Halts :=
  Prog.halts_ite (Prog.halts_bind halts_flashWriteBy fun _ => Prog.halts_done _)
    (Prog.halts_done _)

theorem halts_canExecute {ram : IapRam} :
    (canExecute chip ram buf i dataLen info).Halts := by
  unfold canExecute
  apply Prog.halts_ite (Prog.halts_done _)
  cases CanCommand.decode (bytesFrom buf i 3) with
  | none => exact Prog.halts_done _
  | some command =>
      cases command with
      | otaStart =>
          exact Prog.halts_bind (halts_flashStorageHeader _) fun _ =>
            Prog.halts_bind (halts_flashErasePage _ _) fun _ => Prog.halts_done _
      | otaUpdate => exact Prog.halts_bind halts_writePiece fun _ => Prog.halts_done _
      | otaEnd => exact Prog.halts_bind halts_updateAppMode fun _ => Prog.halts_done _
      | paramsetRead => exact Prog.halts_done _
      | paramsetWrite => exact Prog.halts_done _
      | paramsetSave =>
          exact Prog.halts_bind (halts_iapParamSave _) fun _ => Prog.halts_done _
      | deviceRestart => exact Prog.halts_done _
      | paramsetDefault =>
          exact Prog.halts_bind (Prog.halts_bind (halts_iapParamSave _) fun _ =>
            Prog.halts_done _) fun _ => Prog.halts_done _
      | deviceSearch => exact Prog.halts_done _
      | deviceParamsetSearch => exact Prog.halts_done _
      | automaticCheck => exact Prog.halts_done _

namespace App

/-- The command that a constructor answers. -/
def CanReply.answered : CanReply → CanCommand
  | .otaStartAck => .otaStart
  | .otaUpdateAck _ => .otaUpdate
  | .otaEndAck => .otaEnd
  | .paramsetRead => .paramsetRead
  | .automaticCheck => .automaticCheck
  | .paramsetWrite => .paramsetWrite
  | .paramsetSave => .paramsetSave
  | .deviceRestart => .deviceRestart
  | .paramsetDefault => .paramsetDefault
  | .deviceSearch => .deviceSearch
  | .deviceParamsetSearch => .deviceParamsetSearch

theorem sendsReply_canConstruct {ram : Ram} {total : Nat} (whole : data.length + 10 = total)
    (room : total ≤ 32) :
    SendsReply command ram.iapParam.remoteID ram.iapParam.id
      (send (canConstruct ram total command.sentCode data canSendBuf)) := by
  have buffer : canSendBuf = 100 := rfl
  refine ⟨data, by omega, ?_⟩
  rw [canConstruct, constructFrame_eq (by simp only [List.length_cons]; omega) (by omega)]
  rfl

/-- Every constructor finds room in the send buffer. -/
theorem CanReply.sendsReply (reply : CanReply) {ram : Ram}
    (destination : ram.iapParam.remoteID = remote) (source : ram.iapParam.id = own) :
    SendsReply reply.answered remote own (send (reply.construct ram canSendBuf)) := by
  subst destination source
  cases reply with
  | otaStartAck =>
      exact @sendsReply_canConstruct .otaStart [] ram 10 rfl (by decide)
  | otaUpdateAck stateCode =>
      exact @sendsReply_canConstruct .otaUpdate [_, _, stateCode] ram 13 rfl (by decide)
  | otaEndAck => exact @sendsReply_canConstruct .otaEnd [] ram 10 rfl (by decide)
  | paramsetRead =>
      apply @sendsReply_canConstruct .paramsetRead _ ram 32
      · rfl
      · decide
  | automaticCheck =>
      apply @sendsReply_canConstruct .automaticCheck _ ram 24
      · rfl
      · decide
  | paramsetWrite => exact @sendsReply_canConstruct .paramsetWrite [] ram 10 rfl (by decide)
  | paramsetSave => exact @sendsReply_canConstruct .paramsetSave [] ram 10 rfl (by decide)
  | deviceRestart => exact @sendsReply_canConstruct .deviceRestart [] ram 10 rfl (by decide)
  | paramsetDefault => exact @sendsReply_canConstruct .paramsetDefault [] ram 10 rfl (by decide)
  | deviceSearch =>
      apply @sendsReply_canConstruct .deviceSearch _ ram 32
      · rfl
      · decide
  | deviceParamsetSearch =>
      exact @sendsReply_canConstruct .deviceParamsetSearch [] ram 10 rfl (by decide)

/-- What the handler of the application sends for a command. -/
theorem canExecute_sends {ram : Ram}
    (addressed : IapPort.can.Addressed ram.iapParam.id (bytesFrom buf i))
    (decoded : CanCommand.decode (bytesFrom buf i 3) = some command) :
    (canExecute chip ram stack buf i dataLen info).Yields fun handled =>
      SendsReply command (CanFirmware.app.readRemoteID (bytesFrom buf i))
        (if command = .paramsetDefault then ram.iapParam.id else handled.ram.iapParam.id)
        handled.sent := by
  unfold canExecute
  rw [if_neg (not_foreign addressed)]
  simp only [decoded]
  cases command with
  | otaStart =>
      apply Prog.yields_after _ fun _ => Prog.yields_after _ fun _ => Prog.yields_done ?_
      exact CanReply.otaStartAck.sendsReply rfl rfl
  | otaUpdate =>
      apply Prog.yields_after _ fun written => Prog.yields_done ?_
      exact (CanReply.otaUpdateAck _).sendsReply rfl rfl
  | otaEnd =>
      apply Prog.yields_after _ fun _ => Prog.yields_done ?_
      exact CanReply.otaEndAck.sendsReply rfl rfl
  | paramsetRead =>
      apply Prog.yields_done
      exact CanReply.paramsetRead.sendsReply rfl rfl
  | paramsetWrite =>
      apply Prog.yields_done
      exact CanReply.paramsetWrite.sendsReply rfl rfl
  | paramsetSave =>
      apply Prog.yields_after _ fun _ => Prog.yields_after _ fun _ => Prog.yields_done ?_
      exact CanReply.paramsetSave.sendsReply rfl rfl
  | deviceRestart =>
      apply Prog.yields_done
      exact CanReply.deviceRestart.sendsReply rfl rfl
  | paramsetDefault =>
      apply Prog.yields_after _ fun _ => Prog.yields_done ?_
      exact CanReply.paramsetDefault.sendsReply rfl rfl
  | deviceSearch =>
      apply Prog.yields_done
      exact CanReply.deviceSearch.sendsReply rfl rfl
  | deviceParamsetSearch =>
      apply Prog.yields_done
      exact CanReply.deviceParamsetSearch.sendsReply setSearchedID_remoteID rfl
  | automaticCheck =>
      apply Prog.yields_done
      exact CanReply.automaticCheck.sendsReply rfl rfl

end App

namespace CanFirmware

variable {firmware : CanFirmware} {ram : firmware.protocol.Ram} {fuel len : Nat}

theorem halts_execute :
    (firmware.protocol.execute chip ram stack buf i dataLen info).Halts := by
  cases firmware with
  | app => exact Prog.halts_bind App.halts_canExecute fun _ => Prog.halts_done _
  | iap => exact Prog.halts_bind halts_canExecute fun _ => Prog.halts_done _

theorem code_eq_default_iff : command.code = 0xA5 ↔ command = .paramsetDefault := by
  cases command <;> decide

theorem execute_sends
    (addressed : IapPort.can.Addressed (firmware.protocol.ownID ram) (bytesFrom buf i))
    (decoded : CanCommand.decode (bytesFrom buf i 3) = some command) :
    (firmware.protocol.execute chip ram stack buf i dataLen info).Yields fun response =>
      SendsReply command (firmware.readRemoteID (bytesFrom buf i))
        (firmware.replyingID (bytesFrom buf i 3) ram response.ram) response.sent := by
  simp only [replyingID, CanCommand.decode_eq_some decoded, code_eq_default_iff, apply_ite]
  cases firmware with
  | app =>
      apply Prog.yields_bind (App.canExecute_sends addressed decoded)
      intro handled sends
      exact Prog.yields_done sends
  | iap =>
      apply Prog.yields_bind (canExecute_sends addressed decoded)
      intro handled sends
      exact Prog.yields_done sends

/-- Only the bootloader can take a wrong remote ID. -/
theorem readRemoteID_eq_iff {frame : Nat → UInt8} :
    firmware.readRemoteID frame = half frame 6 ↔ (firmware = .iap → frame 7 = frame 4) := by
  cases firmware with
  | app => simp [readRemoteID]
  | iap =>
      have byte4 := (frame 4).toNat_lt
      have byte6 := (frame 6).toNat_lt
      have shifted : (half frame 4 <<< 8).toNat = 2 ^ 8 * (frame 4).toNat := by
        rw [UInt16.toNat_shiftLeft, half_toNat, Nat.shiftLeft_eq]
        change ((frame 4).toNat + 256 * (frame 5).toNat) * 256 % 65536 = 256 * (frame 4).toNat
        omega
      have read : (readRemoteID .iap frame).toNat = 2 ^ 8 * (frame 4).toNat + (frame 6).toNat := by
        rw [readRemoteID, UInt16.toNat_or, shifted, UInt16.toNat_ofNat',
          Nat.mod_eq_of_lt (by omega), Nat.two_pow_add_eq_or_of_lt byte6]
      rw [← UInt16.toNat_inj, read, half_toNat, ← UInt8.toNat_inj]
      change _ = (frame 6).toNat + 256 * (frame 7).toNat ↔ _
      simp only [true_imp_iff]
      omega

theorem replies_iff (accepts : firmware.protocol.Accepts fuel buf len i dataLen)
    (addressed : IapPort.can.Addressed (firmware.protocol.ownID ram) (bytesFrom buf i))
    (decoded : CanCommand.decode (bytesFrom buf i 3) = some command) :
    firmware.Replies chip fuel ram stack buf len (bytesFrom buf i) ↔
      command ≠ .automaticCheck ∧
        firmware.readRemoteID (bytesFrom buf i) = half (bytesFrom buf i) 6 := by
  have code := CanCommand.decode_eq_some decoded
  have room : 32 ≤ firmware.protocol.maxLen := by cases firmware <;> decide
  have sends := @execute_sends command chip stack buf i dataLen (Protocol.acceptInfo i dataLen)
    firmware ram addressed decoded
  rw [Replies, Protocol.handle_accepts accepts]
  constructor
  · intro replies
    obtain ⟨response, after, rest, reply, run, sent, fits⟩ :=
      replies faultless ⟨fun _ => erasedByte, true, []⟩ faultless_powered
    obtain ⟨data, short, only⟩ := Prog.run_yields sends run
    rw [only, List.cons.injEq] at sent
    rw [← sent.1] at fits
    exact (matchesRequest_iff short room code).mp fits
  · intro right schedule state powered
    have halts := @halts_execute chip stack buf i dataLen (Protocol.acceptInfo i dataLen) firmware
      ram
    obtain ⟨response, after, used, run⟩ := Prog.run_halts halts powered state
    obtain ⟨data, short, only⟩ := Prog.run_yields sends run
    exact ⟨response, after, _, _, run, only, (matchesRequest_iff short room code).mpr right⟩

/-- The handlers answer a command that is addressed to the device with a matching reply
exactly if it is no automatic check and, in the bootloader, the high byte of the
requester's ID is the low byte of the device ID in the request. -/
theorem request_reply_iff (firmware : CanFirmware) (chip : Chip) (fuel : Nat)
    (ram : firmware.protocol.Ram) (stack buf : Nat → UInt8) (len i dataLen : Nat)
    (accepts : firmware.protocol.Accepts fuel buf len i dataLen)
    (addressed : IapPort.can.Addressed (firmware.protocol.ownID ram) (bytesFrom buf i))
    (answered : (CanCommand.decode (bytesFrom buf i 3)).isSome) :
    firmware.Replies chip fuel ram stack buf len (bytesFrom buf i) ↔
      bytesFrom buf i 3 ≠ 0xC1 ∧ (firmware = .iap → bytesFrom buf i 7 = bytesFrom buf i 4) := by
  obtain ⟨command, decoded⟩ := Option.isSome_iff_exists.mp answered
  have check : bytesFrom buf i 3 ≠ 0xC1 ↔ command ≠ .automaticCheck := by
    rw [CanCommand.decode_eq_some decoded]
    cases command <;> decide
  rw [replies_iff accepts addressed decoded, check, readRemoteID_eq_iff]

theorem request_reply_iff_sample :
    app.Replies sampleChip 1 App.sampleRam (fun _ => 0) (bufferOf shortUpdate) 11
        (bytesFrom (bufferOf shortUpdate) 0) ↔
      bytesFrom (bufferOf shortUpdate) 0 3 ≠ 0xC1 ∧
        (app = .iap →
          bytesFrom (bufferOf shortUpdate) 0 7 = bytesFrom (bufferOf shortUpdate) 0 4) :=
  request_reply_iff .app sampleChip 1 App.sampleRam (fun _ => 0) (bufferOf shortUpdate) 11 0 11
    shortUpdate_accepts (Or.inr rfl) (by decide)

/-- A device search from device 1 to all devices. -/
def deviceSearchRequest : List UInt8 := construct 0xB1 [0xFF, 0xFF, 1, 0]

theorem deviceSearchRequest_accepts :
    iap.protocol.Accepts 1 (bufferOf deviceSearchRequest) 10 0 10 := by
  constructor
  · decide
  · decide +kernel

/-- The bootloader answers the search to device 0xFF01. -/
theorem deviceSearch_unmatched :
    ¬ ∀ (firmware : CanFirmware) (chip : Chip) (fuel : Nat) (ram : firmware.protocol.Ram)
      (stack buf : Nat → UInt8) (len i dataLen : Nat),
      firmware.protocol.Accepts fuel buf len i dataLen →
      IapPort.can.Addressed (firmware.protocol.ownID ram) (bytesFrom buf i) →
      (CanCommand.decode (bytesFrom buf i 3)).isSome →
      firmware.Replies chip fuel ram stack buf len (bytesFrom buf i) := by
  intro matched
  have replies := matched .iap sampleChip 1 (IapRam.loaded (IapParam.default sampleChip))
    (fun _ => 0) (bufferOf deviceSearchRequest) 10 0 10 deviceSearchRequest_accepts (Or.inr rfl)
    (by decide)
  have right := (@replies_iff .deviceSearch sampleChip (fun _ => 0) _ 0 10 .iap
    (IapRam.loaded (IapParam.default sampleChip)) 1 10 deviceSearchRequest_accepts (Or.inr rfl)
    rfl).mp replies
  exact absurd right.2 (by decide)

end CanFirmware

end LedFirmware
