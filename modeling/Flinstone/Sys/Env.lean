import Flinstone.Vm.Memory

/-! # The host -/

namespace Flinstone.Sys
open Flinstone.Vm

abbrev Sector := Fin 512 → Byte

inductive BlockReply where
  | noDriver
  | failed
  | sector (data : Sector)

structure Env (W : Type) where
  -- `write` to standard output and `read` from standard input; a read of `none` is `-1`
  write : List Byte → W → Size × W
  read : Nat → W → Option (List Byte) × W
  fputc : Byte → W → W
  -- the bytes a block of the heap really has, which may be more than were asked for
  malloc : Nat → W → Option Nat × W
  -- how often a wait that nobody signals returns before it never does
  condWait : W → Nat × W
  -- the codes of successive timed waits that nobody signals; after the last one the time is up
  condTimedwait : W → List Word × W
  -- whether a call of the thread or file library succeeds
  succeeds : W → Bool × W
  -- `none` without a driver or without a key
  pollScancode : W → Option Byte × W
  tickCount : W → Option Size × W
  eoi : Nat → W → W
  readSector : Word → W → BlockReply × W
  writeSector : Word → Sector → W → W
  -- `none` without a display driver
  refreshVga : Option (List Byte → W → W)

def idleHost : Env Unit where
  write := fun bytes _ => (BitVec.ofNat 64 bytes.length, ())
  read := fun _ _ => (some [], ())
  fputc := fun _ _ => ()
  malloc := fun size _ => (some size, ())
  condWait := fun _ => (0, ())
  condTimedwait := fun _ => ([], ())
  succeeds := fun _ => (true, ())
  pollScancode := fun _ => (none, ())
  tickCount := fun _ => (none, ())
  eoi := fun _ _ => ()
  readSector := fun _ _ => (.noDriver, ())
  writeSector := fun _ _ _ => ()
  refreshVga := some fun _ _ => ()

-- no keyboard input, and no call of the file library or of the allocator fails
structure CalmHost {W : Type} (env : Env W) : Prop where
  keyboard : ∀ w, (env.pollScancode w).1 = none
  files : ∀ w, (env.succeeds w).1 = true
  memory : ∀ size w, (env.malloc size w).1.isSome = true

theorem idleHost_calm : CalmHost idleHost := ⟨fun _ => rfl, fun _ => rfl, fun _ _ => rfl⟩

namespace CalmHost
variable {W : Type} {env : Env W}

theorem succeeds_eq (calm : CalmHost env) (w : W) : ∃ w', env.succeeds w = (true, w') :=
  ⟨(env.succeeds w).2, Prod.ext (calm.files w) rfl⟩

theorem malloc_eq (calm : CalmHost env) (size : Nat) (w : W) :
    ∃ granted w', env.malloc size w = (some granted, w') := by
  obtain ⟨granted, some⟩ := Option.isSome_iff_exists.mp (calm.memory size w)
  exact ⟨granted, (env.malloc size w).2, Prod.ext some rfl⟩

end CalmHost

end Flinstone.Sys
