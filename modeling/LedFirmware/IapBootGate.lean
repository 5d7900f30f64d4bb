import LedFirmware.IapBoot

/-!
# Rejected updates leave the images alone

When the size or CRC check of `main` refuses a staged update, the boot changes
nothing but the flag page on its way to the jump.  If it enters IAP mode
instead, loading the parameters may also write the parameter page.
-/

namespace LedFirmware

open CrashProgram NorFlash

variable {chip : Chip} {region : Set Nat}

theorem touches_runAPP (inside : pageAt chip.addrIapFlag ⊆ region) :
    Touches chip.geometry region (runAPP chip) :=
  .bind (touches_flashRead _) fun _ => .ite (fun _ => .done _) fun _ =>
    .bind (touches_forceUpdateAppMode inside) fun _ => .done _

/-- The checks come first in a boot and change nothing. -/
theorem wp_bootEntry {uncompress : Uncompress} {fuel : Nat} {allowed : Fault → Prop}
    {post : FlashPost chip.geometry BootEntry} {state : State} (lost : post.lost state)
    (entered : (enter chip uncompress fuel (verdict chip state.mem)).wp allowed post state) :
    (bootEntry chip uncompress fuel).wp allowed post state :=
  returns_bootChecks.wp_bind lost entered

theorem verdict_reject {mem : Mem} (updating : iapFlag chip mem = otaUpdateApp)
    (refused : ¬ GateAccepts chip mem (headerAt chip mem)) : verdict chip mem = .reject := by
  have notRunning : iapFlag chip mem ≠ otaRunApp := by
    rw [updating]
    decide
  rw [verdict, if_neg notRunning, if_pos updating, if_neg refused]

/-- Unless a staged update is accepted, everything up to the jump touches the
flag page only. -/
theorem touches_enter {found : Verdict} (uncompress : Uncompress) (fuel : Nat)
    (inside : pageAt chip.addrIapFlag ⊆ region) (noUpdate : ∀ header, found ≠ .update header) :
    Touches chip.geometry region (enter chip uncompress fuel found) := by
  cases found with
  | runApp => exact touches_runAPP inside
  | reject => exact .bind (touches_runAppMode inside) fun _ => touches_runAPP inside
  | update header => exact absurd rfl (noUpdate header)
  | iap => exact .done BootEntry.otaoe

theorem wp_bootEntry_confined {allowed : Fault → Prop} {state : State} (uncompress : Uncompress)
    (fuel : Nat) (inside : pageAt chip.addrIapFlag ⊆ region)
    (noUpdate : ∀ header, verdict chip state.mem ≠ .update header) :
    (bootEntry chip uncompress fuel).wp allowed
      ⟨fun _ => Confined chip.geometry region state, Confined chip.geometry region state,
        Confined chip.geometry region state⟩ state :=
  wp_bootEntry (Confined.refl _) (wp_of_touches (touches_enter uncompress fuel inside noUpdate) _)

/-- Such a boot may in addition write the parameter page when it enters IAP mode. -/
theorem wp_main_confined {allowed : Fault → Prop} {state : State} (uncompress : Uncompress)
    (fuel : Nat) (flagPage : pageAt chip.addrIapFlag ⊆ region)
    (paramPage : pageAt chip.addrIapParam ⊆ region)
    (noUpdate : ∀ header, verdict chip state.mem ≠ .update header) :
    (main chip uncompress fuel).wp allowed
      ⟨fun _ => Confined chip.geometry region state, Confined chip.geometry region state,
        Confined chip.geometry region state⟩ state := by
  refine (Prog.wp_bind _ _ _ _).mpr (Prog.wp_mono
    (wp_bootEntry_confined uncompress fuel flagPage noUpdate) ?_
    (fun _ holds => holds) fun _ holds => holds)
  intro entered after early
  cases entered with
  | jump stackPointer jumpAddress => exact (Prog.wp_done _ _ _).mpr early
  | reset => exact (Prog.wp_done _ _ _).mpr early
  | otaoe =>
      have load : Touches chip.geometry region
          (iapParamLoad chip >>= fun iapParam => .done (BootEnd.iapLoop iapParam)) :=
        .bind (touches_iapParamLoad paramPage) fun _ => .done _
      exact Prog.wp_mono (wp_of_touches load after) (fun _ _ late => early.trans late)
        (fun _ late => early.trans late) fun _ late => early.trans late

section Disjoint

variable (chip : Chip)

/-- The areas that hold the images and the header. -/
def imageAreas : Set Nat := runArea ∪ copyArea chip ∪ pageAt chip.addrAppInfo

theorem imageAreas_below_param {cell : Nat} (inside : cell ∈ imageAreas chip) :
    cell < chip.addrIapParam := by
  have info := info_below_param chip
  have copy := copy_below_info chip
  have run := run_below_info chip
  simp only [imageAreas, runArea, copyArea, pageAt, Set.mem_union, Set.mem_Ico] at inside
  have positive : 0 < flashPageSize := by simp [flashPageSize]
  omega

theorem imageAreas_subset :
    imageAreas chip ⊆ (pageAt chip.addrIapFlag ∪ pageAt chip.addrIapParam)ᶜ := by
  intro cell inside
  have below := imageAreas_below_param chip inside
  have flag := param_below_flag chip
  simp only [pageAt, Set.mem_compl_iff, Set.mem_union, Set.mem_Ico]
  omega

end Disjoint

/-- What a boot with a refused update leaves unchanged: up to the jump,
everything but the flag page; in the whole boot, the run area, the copy area
and the header page.  Flash operations may fail and power may be lost. -/
theorem rejected_boot_keeps_images (chip : Chip) (uncompress : Uncompress) (fuel : Nat)
    (state : State) (schedule : FlashSchedule)
    (updating : iapFlag chip state.mem = otaUpdateApp)
    (refused : (headerAt chip state.mem).updatesTotalSize > otaBinMaxSize ∨
      (headerAt chip state.mem).updatesCRC32 ≠ (crc32 (bytesAt state.mem chip.addrAppCopy)
        (headerAt chip state.mem).updatesTotalSize).toNat) :
    Set.EqOn (Prog.run (bootEntry chip uncompress fuel) schedule (powerUp state)).state.mem
        state.mem (pageAt chip.addrIapFlag)ᶜ ∧
      Set.EqOn (Prog.run (main chip uncompress fuel) schedule (powerUp state)).state.mem
        state.mem (imageAreas chip) := by
  have rejected : verdict chip (powerUp state).mem = .reject :=
    verdict_reject updating fun accepted => by
      rcases refused with oversize | mismatch
      · exact absurd accepted.1 (not_le.mpr oversize)
      · exact mismatch accepted.2
  have noUpdate (header : IapUpdataParam) :
      verdict chip (powerUp state).mem ≠ .update header := by
    rw [rejected]
    intro impossible
    cases impossible
  have entry := @wp_bootEntry_confined chip _ AnyFault (powerUp state) uncompress fuel
    (subset_refl (pageAt chip.addrIapFlag)) noUpdate
  have boot := @wp_main_confined chip (pageAt chip.addrIapFlag ∪ pageAt chip.addrIapParam)
    AnyFault (powerUp state) uncompress fuel Set.subset_union_left Set.subset_union_right noUpdate
  exact ⟨(Prog.run_state entry (anyFault_within schedule)).kept,
    (Prog.run_state boot (anyFault_within schedule)).kept.mono (imageAreas_subset chip)⟩

theorem rejected_boot_keeps_images_erased_header :
    Set.EqOn
        (Prog.run (bootEntry sampleChip zeroUncompress 1) (fun _ => some .none)
          (powerUp ⟨stagedFlash sampleChip otaUpdateApp [] [], true, []⟩)).state.mem
        (stagedFlash sampleChip otaUpdateApp [] []) (pageAt sampleChip.addrIapFlag)ᶜ ∧
      Set.EqOn
        (Prog.run (main sampleChip zeroUncompress 1) (fun _ => some .none)
          (powerUp ⟨stagedFlash sampleChip otaUpdateApp [] [], true, []⟩)).state.mem
        (stagedFlash sampleChip otaUpdateApp [] []) (imageAreas sampleChip) :=
  rejected_boot_keeps_images sampleChip zeroUncompress 1
    ⟨stagedFlash sampleChip otaUpdateApp [] [], true, []⟩ (fun _ => some .none)
    (by decide +kernel) (Or.inl (by decide +kernel))

end LedFirmware
