import LedFirmware.Playback
import Mathlib.Data.Fin.VecNotation
import Mathlib.Data.Vector.Basic
import Mathlib.Logic.Function.Basic

/-!
# The lamps of the LED board

`Led_ModeSelect` drives one of 38 port pins by lamp number and colour.  Seen through
the pin tables of `gpio.h`, a program of such calls changes the lamps that it names
and no others, and leaves every other pin as it was.
-/

namespace LedFirmware

open Playback Simulation

/-- The ports that `led_gpio_init` configures. -/
inductive GpioPort
  | a
  | b
  | c
  | d
  | e
  | f
  | g
  deriving DecidableEq, Repr

/-- A pin of a port. -/
structure GpioPin where
  port : GpioPort
  number : Nat
  deriving DecidableEq, Repr

/-- `red` and `orange`, the values of `sel`. -/
inductive LedColour
  | red
  | orange
  deriving DecidableEq, Repr

/-- The pins of `red1_ON` to `red19_ON`. -/
def redPins : Vector GpioPin 19 :=
  #v[⟨.a, 12⟩, ⟨.c, 11⟩, ⟨.d, 5⟩, ⟨.g, 12⟩, ⟨.g, 15⟩, ⟨.e, 4⟩, ⟨.c, 14⟩, ⟨.e, 2⟩, ⟨.e, 1⟩, ⟨.e, 0⟩,
    ⟨.e, 14⟩, ⟨.e, 8⟩, ⟨.f, 14⟩, ⟨.f, 11⟩, ⟨.b, 1⟩, ⟨.b, 10⟩, ⟨.b, 11⟩, ⟨.b, 12⟩, ⟨.b, 13⟩]

/-- The pins of `orange1_ON` to `orange19_ON`. -/
def orangePins : Vector GpioPin 19 :=
  #v[⟨.c, 10⟩, ⟨.a, 15⟩, ⟨.d, 7⟩, ⟨.d, 6⟩, ⟨.b, 4⟩, ⟨.c, 13⟩, ⟨.e, 5⟩, ⟨.e, 6⟩, ⟨.b, 9⟩, ⟨.b, 5⟩,
    ⟨.e, 15⟩, ⟨.e, 7⟩, ⟨.f, 15⟩, ⟨.f, 12⟩, ⟨.b, 0⟩, ⟨.d, 8⟩, ⟨.d, 12⟩, ⟨.b, 14⟩, ⟨.b, 15⟩]

def ledPin : LedColour → Fin 19 → GpioPin
  | .red, num => redPins[num]
  | .orange, num => orangePins[num]

/-- The pins that `led_gpio_init` makes push-pull outputs. -/
def ledOutputs : GpioPort → List Nat
  | .a => [12, 15]
  | .b => [0, 1, 4, 5, 9, 10, 11, 12, 13, 14, 15]
  | .c => [10, 11, 13, 14]
  | .d => [5, 6, 7, 8, 12, 14, 15]
  | .e => [0, 1, 2, 4, 5, 6, 7, 8, 14, 15]
  | .f => [11, 12, 14, 15]
  | .g => [12, 15]

/-- The levels in the output registers. -/
abbrev GpioLevels := GpioPin → Bool

/-- `led_gpio_init`: its last two calls drive a pin low. -/
def ledGpioInit (levels : GpioLevels) : GpioLevels :=
  Function.update (Function.update levels (ledPin .orange 1) false) (ledPin .orange 4) false

/-- What the LED thread calls. -/
inductive LedCall
  | select (num : UInt8) (sel : LedColour) (control : Bool)
  | delay (ticks : Nat)
  deriving DecidableEq, Repr

/-- A wait of the thread and what it shows. -/
abbrev Pause (Scene : Type) := Nat × Scene

/-- One call on the pins.  The default of `Led_ModeSelect` waits two ticks. -/
def gpioCall (levels : GpioLevels) : LedCall → Option (Pause GpioLevels) × GpioLevels
  | .select num sel control =>
      if inside : num.toNat < 19 then
        (none, Function.update levels (ledPin sel ⟨num.toNat, inside⟩) control)
      else (some (2, levels), levels)
  | .delay ticks => (some (ticks, levels), levels)

/-- Which lamps are lit. -/
abbrev Lamps := Fin 19 → LedColour → Bool

/-- The lamps of a list switched on or off. -/
def Lamps.paint (lamps : Lamps) (chosen : List (Fin 19 × LedColour)) (control : Bool) : Lamps :=
  fun num sel => if (num, sel) ∈ chosen then control else lamps num sel

/-- The same call on the lamps. -/
def lampCall (lamps : Lamps) : LedCall → Option (Pause Lamps) × Lamps
  | .select num sel control =>
      if inside : num.toNat < 19 then
        (none, lamps.paint [(⟨num.toNat, inside⟩, sel)] control)
      else (some (2, lamps), lamps)
  | .delay ticks => (some (ticks, lamps), lamps)

/-! ## The pin tables -/

/-- The lamp of a pin. -/
def lampOf (pin : GpioPin) : Option (Fin 19 × LedColour) :=
  match redPins.toList.findFinIdx? (· == pin), orangePins.toList.findFinIdx? (· == pin) with
  | some num, _ => some (num.cast (by simp), .red)
  | none, some num => some (num.cast (by simp), .orange)
  | none, none => none

theorem lampOf_ledPin : ∀ (num : Fin 19) (sel : LedColour),
    lampOf (ledPin sel num) = some (num, sel) := by
  intro num sel
  cases sel <;> revert num <;> decide

/-- No two lamps share a pin. -/
theorem ledPin_inj {num other : Fin 19} {sel sel' : LedColour} :
    ledPin sel num = ledPin sel' other ↔ num = other ∧ sel = sel' := by
  constructor
  · intro same
    have lamps := congrArg lampOf same
    simpa [lampOf_ledPin] using lamps
  · rintro ⟨rfl, rfl⟩
    rfl

/-- The pin of every lamp is an output. -/
theorem ledPin_output (num : Fin 19) (sel : LedColour) :
    (ledPin sel num).number ∈ ledOutputs (ledPin sel num).port := by
  cases sel <;> revert num <;> decide

/-- The levels as lamps. -/
def lampsOf (levels : GpioLevels) : Lamps := fun num sel => levels (ledPin sel num)

theorem lampsOf_update (levels : GpioLevels) (num : Fin 19) (sel : LedColour) (control : Bool) :
    lampsOf (Function.update levels (ledPin sel num) control) =
      (lampsOf levels).paint [(num, sel)] control := by
  funext other sel'
  simp only [lampsOf, Lamps.paint, Function.update_apply, ledPin_inj, List.mem_singleton,
    Prod.mk.injEq]

/-! ## Programs of calls -/

/-- The levels show the lamps, and the pins without a lamp have the levels `rest`. -/
structure Drives (rest levels : GpioLevels) (lamps : Lamps) : Prop where
  lamps : lampsOf levels = lamps
  rest : ∀ pin, (∀ num sel, pin ≠ ledPin sel num) → levels pin = rest pin

theorem Drives.refl (levels : GpioLevels) : Drives levels levels (lampsOf levels) :=
  ⟨rfl, fun _ _ => rfl⟩

/-- A pause on the pins and a pause of the lamps. -/
def PausesAlike (rest : GpioLevels) (pins : Pause GpioLevels) (lamps : Pause Lamps) : Prop :=
  pins.1 = lamps.1 ∧ Drives rest pins.2 lamps.2

theorem Drives.call {rest levels : GpioLevels} {lamps : Lamps} (drives : Drives rest levels lamps)
    (call : LedCall) :
    Alike (Option.Rel (PausesAlike rest)) (Drives rest) (gpioCall levels call)
      (lampCall lamps call) := by
  cases call with
  | select num sel control =>
      by_cases inside : num.toNat < 19
      · simp only [gpioCall, lampCall, inside, dite_true]
        refine ⟨.none, ?_, fun pin other => ?_⟩
        · rw [lampsOf_update, drives.lamps]
        · exact (Function.update_of_ne (other _ _) ..).trans (drives.rest pin other)
      · simp only [gpioCall, lampCall, inside, dite_false]
        exact ⟨.some ⟨rfl, drives⟩, drives⟩
  | delay ticks => exact ⟨.some ⟨rfl, drives⟩, drives⟩

/-- A program drives the pins as it switches the lamps: each of its pauses shows the
same, and no pin without a lamp ever changes. -/
theorem gpio_play_alike {rest levels : GpioLevels} {lamps : Lamps}
    (drives : Drives rest levels lamps) (calls : List LedCall) :
    Alike (List.Forall₂ (PausesAlike rest)) (Drives rest) (play gpioCall calls levels)
      (play lampCall calls lamps) :=
  play_alike (fun call drives => Drives.call drives call) calls drives

end LedFirmware
