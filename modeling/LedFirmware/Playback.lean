import LedFirmware.Simulation
import Mathlib.Data.List.ReduceOption
import Mathlib.Data.List.Range

/-!
# Playing a list of commands

A command changes a scene, and some commands show the scene.  The frames of a
program are the frames of its parts in turn, and a counted loop shows the frames of
its rounds if each round leads from one scene to the next.
-/

namespace Playback

open Simulation

variable {Command Scene Frame Scene' Frame' : Type}

/-- What the commands show, and the scene behind the last of them. -/
def play (step : Scene → Command → Option Frame × Scene) (commands : List Command)
    (scene : Scene) : List Frame × Scene :=
  let all := runAll step commands scene
  (all.1.reduceOption, all.2)

variable {step : Scene → Command → Option Frame × Scene}

@[simp]
theorem play_nil (scene : Scene) : play step [] scene = ([], scene) :=
  rfl

theorem play_cons (command : Command) (later : List Command) (scene : Scene) :
    play step (command :: later) scene =
      ((step scene command).1.toList ++ (play step later (step scene command).2).1,
        (play step later (step scene command).2).2) := by
  cases shown : (step scene command).1 with
  | none => simp [play, runAll, shown, List.reduceOption_cons_of_none]
  | some frame => simp [play, runAll, shown, List.reduceOption_cons_of_some]

theorem play_append (first later : List Command) (scene : Scene) :
    play step (first ++ later) scene =
      ((play step first scene).1 ++ (play step later (play step first scene).2).1,
        (play step later (play step first scene).2).2) := by
  induction first generalizing scene with
  | nil => simp
  | cons command first ih => simp [play_cons, ih]

/-- The rounds of a counted loop, each from its scene to the next one. -/
theorem play_loop (step : Scene → Command → Option Frame × Scene) (rounds : Nat)
    (body : Nat → List Command) (scenes : Nat → Scene) (shown : Nat → List Frame)
    (round : ∀ k < rounds, play step (body k) (scenes k) = (shown k, scenes (k + 1))) :
    play step ((List.range rounds).flatMap body) (scenes 0) =
      ((List.range rounds).flatMap shown, scenes rounds) := by
  induction rounds with
  | zero => rfl
  | succ rounds ih =>
      have before := ih fun k inside => round k (by omega)
      have last := round rounds (by omega)
      simp [List.range_succ, List.flatMap_append, play_append, before, last]

/-- Programs that are played alike show alike. -/
theorem play_alike {step' : Scene' → Command → Option Frame' × Scene'}
    {frames : Frame → Frame' → Prop} {scenes : Scene → Scene' → Prop}
    (alike : ∀ {scene scene'} (command : Command), scenes scene scene' →
      Alike (Option.Rel frames) scenes (step scene command) (step' scene' command))
    (commands : List Command) {scene : Scene} {scene' : Scene'}
    (related : scenes scene scene') :
    Alike (List.Forall₂ frames) scenes (play step commands scene)
      (play step' commands scene') := by
  induction commands generalizing scene scene' with
  | nil => exact ⟨.nil, related⟩
  | cons command later ih =>
      have first := alike command related
      have rest := ih first.state
      rw [play_cons, play_cons]
      refine ⟨?_, rest.state⟩
      have shown := first.answer
      generalize (step scene command).1 = frame, (step' scene' command).1 = frame' at shown
      cases shown with
      | none => exact rest.answer
      | some same => exact .cons same rest.answer

end Playback
