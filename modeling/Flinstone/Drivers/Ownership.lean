import Flinstone.Drivers.Binding
import Flinstone.Lib.Calls

/-! # Who owns an interrupt -/

namespace Flinstone.Drivers
open Flinstone.Lib List Option

inductive ModelCall where
  | registerDriver (driver : Driver)
  | init (bus : List Enumerated)
  | shutdown
  | irq (call : IrqCall)
  | claim (dev : Device) (type : ResourceType) (index : Int)
  | releaseAll (dev : Device)

-- `none`: the call does not return
def ModelCall.run : ModelCall → Model → Option Model
  | registerDriver driver, m => flDriverRegistryRegister driver m
  | init bus, m => flDriversInit bus m
  | shutdown, m => some (flDriversShutdown m)
  | irq call, m => some (m.interrupts [call])
  | claim dev type index, m => some { m with claims := (flResourceClaim dev type index m.claims).2 }
  | releaseAll dev, m => some (m.release dev)

-- `fl_resource_claim` reads the descriptor of the device
def ModelCall.Defined (m : Model) : ModelCall → Prop
  | claim dev _ _ => dev.id ∈ m.live
  | _ => True

def ModelCall.Returns (m : Model) (call : ModelCall) (m' : Model) : Prop := call.Defined m ∧ call.run m = some m'

abbrev ModelReaches (allowed : Model → ModelCall → Prop) : Model → Prop :=
  Reached (fun m call m' => ModelCall.Returns m call m') allowed (.empty [])

def OwnedSlot (live : List Nat) (claims : Claims) (i : Fin maxIrq) (slot : IrqSlot) : Prop :=
  ∃ id, slot.owner = some id ∧ id ∈ live ∧
    ∃ claim ∈ claims, claim.owner = id ∧ claim.resource.type = .irq ∧ claim.resource.start.toNat = i

def Owned (live : List Nat) (claims : Claims) (table : IrqTable) : Prop :=
  ∀ i, (table i).handler.isSome → OwnedSlot live claims i (table i)

def Unhandled (table : IrqTable) (id : Nat) : Prop := ∀ i, (table i).handler.isSome → (table i).owner ≠ some id

def Driver.Tidy (driver : Driver) (dev : Device) : Prop :=
  (driver.attaches dev).2 = false → ∀ claims table, Unhandled table dev.id →
    Unhandled (runIrqCalls claims (driver.attaches dev).1 table) dev.id

def TidyOn (drivers : List Driver) (desc : DeviceDesc) : Prop :=
  ∀ driver ∈ drivers, driverMatches driver desc = true → ∀ id, driver.Tidy ⟨id, desc⟩

def TidyCall (m : Model) : ModelCall → Prop
  | .init bus => ∀ entry ∈ bus, TidyOn m.drivers entry.desc
  | .releaseAll dev => Unhandled m.irq dev.id
  | _ => True

section
variable {live : List Nat} {claims : Claims} {table : IrqTable}
variable {i : Fin maxIrq} {live' : List Nat} {claims' : Claims}

theorem Owned.set (owned : Owned live claims table) {slot : IrqSlot}
    (new : slot.handler.isSome → OwnedSlot live claims i slot) : Owned live claims (table.set i slot) := by
  intro j handled
  unfold IrqTable.set at handled ⊢
  by_cases same : j = i
  · subst same
    rw [Function.update_self] at handled ⊢
    exact new handled
  · rw [Function.update_of_ne same] at handled ⊢
    exact owned j handled

theorem irqOwner_spec {owner : Nat} (found : irqOwnerFromResources i claims = some owner) :
    ∃ claim ∈ claims, claim.owner = owner ∧ claim.resource.type = .irq ∧ claim.resource.start.toNat = i := by
  obtain ⟨claim, first, rfl⟩ := map_eq_some_iff.mp found
  have holds := find?_some first
  simp only [decide_eq_true_eq] at holds
  refine ⟨claim, mem_of_find?_eq_some first, rfl, holds.1, ?_⟩
  have small : maxIrq ≤ 2 ^ 64 := by decide
  rw [holds.2, BitVec.toNat_ofNat, Nat.mod_eq_of_lt (by omega)]

theorem Owned.flIrqRegister (owned : Owned live claims table) (alive : ∀ claim ∈ claims, claim.owner ∈ live) (irq : Int)
    (handler : Option Handler) : Owned live claims (flIrqRegister irq handler claims table).2 := by
  unfold Drivers.flIrqRegister
  split
  · split
    · exact owned
    · next i _ _ owner found =>
        split
        · exact owned
        · obtain ⟨claim, member, rfl, irq, start⟩ := irqOwner_spec found
          exact owned.set fun _ => ⟨_, rfl, alive claim member, claim, member, rfl, irq, start⟩
  · exact owned

theorem Owned.run (owned : Owned live claims table) (alive : ∀ claim ∈ claims, claim.owner ∈ live) (call : IrqCall) :
    Owned live claims (call.run claims table) := by
  cases call with
  | register irq handler => exact owned.flIrqRegister alive irq handler
  | registerDevice dev index handler =>
    change Owned live claims (flIrqRegisterDevice dev index handler claims table).2
    unfold flIrqRegisterDevice
    split
    · exact owned
    · exact owned.flIrqRegister alive _ handler
  | unregister irq =>
    change Owned live claims (flIrqUnregister irq table)
    unfold flIrqUnregister
    split
    · exact owned
    · exact owned.set nofun
  | unregisterDevice dev =>
    intro i handled
    change (flIrqUnregisterDevice dev table i).handler.isSome at handled
    change OwnedSlot live claims i (flIrqUnregisterDevice dev table i)
    unfold flIrqUnregisterDevice at handled ⊢
    split at handled
    · cases handled
    · next other =>
        rw [if_neg other]
        exact owned i handled
  | enable irq enabled =>
    change Owned live claims (flIrqEnable irq enabled table)
    unfold flIrqEnable
    split
    · exact owned
    · next i _ => exact owned.set fun handled => owned i handled

theorem Owned.runCalls (owned : Owned live claims table) (alive : ∀ claim ∈ claims, claim.owner ∈ live)
    (calls : List IrqCall) : Owned live claims (runIrqCalls claims calls table) := by
  induction calls generalizing table with
  | nil => exact owned
  | cons call rest ih => exact ih (owned.run alive call)

theorem Owned.mono (owned : Owned live claims table)
    (more : ∀ id ∈ live, id ∈ live') (kept : ∀ claim ∈ claims, claim ∈ claims') : Owned live' claims' table := by
  intro i handled
  obtain ⟨id, owner, alive, claim, member, facts⟩ := owned i handled
  exact ⟨id, owner, more id alive, claim, kept claim member, facts⟩

theorem Owned.released {id : Nat} (owned : Owned live claims table)
    (unhandled : Unhandled table id) (more : ∀ other ∈ live, other ≠ id → other ∈ live')
    (kept : ∀ claim ∈ claims, claim.owner ≠ id → claim ∈ claims') : Owned live' claims' table := by
  intro i handled
  obtain ⟨owner, named, alive, claim, member, same, facts⟩ := owned i handled
  have other : owner ≠ id := fun same => unhandled i handled (same ▸ named)
  exact ⟨owner, named, more owner alive other, claim, kept claim member (same ▸ other), same, facts⟩

end

structure Sound (m : Model) : Prop where
  owned : Owned m.live m.claims m.irq
  alive : ∀ claim ∈ m.claims, claim.owner ∈ m.live
  known : ∀ id ∈ m.live, id < m.nextId
  small : m.claims.length ≤ maxResources

variable {m m' : Model} {dev : Device} {drivers : List Driver}

theorem Sound.interrupts (sound : Sound m) (calls : List IrqCall) : Sound (m.interrupts calls) :=
  ⟨sound.owned.runCalls sound.alive calls, sound.alive, sound.known, sound.small⟩

theorem mem_release {claim : ResourceClaim} :
    claim ∈ (m.release dev).claims ↔ claim ∈ m.claims ∧ claim.owner ≠ dev.id := by
  unfold Model.release
  rw [(flResourceReleaseAll_perm dev m.claims).mem_iff, mem_filter, decide_eq_true_iff]

theorem length_release (m : Model) (dev : Device) : (m.release dev).claims.length ≤ m.claims.length := by
  unfold Model.release
  rw [(flResourceReleaseAll_perm dev m.claims).length_eq]
  exact length_filter_le _ _

theorem Sound.release (sound : Sound m) (unhandled : Unhandled m.irq dev.id) : Sound (m.release dev) where
  owned := sound.owned.released unhandled (fun _ alive _ => alive) fun _ member other => mem_release.mpr ⟨member, other⟩
  alive := fun claim member => sound.alive claim (mem_release.mp member).1
  known := sound.known
  small := (length_release m dev).trans sound.small

theorem Sound.claim (sound : Sound m) (alive : dev.id ∈ m.live) (type : ResourceType)
    (index : Int) : Sound { m with claims := (flResourceClaim dev type index m.claims).2 } := by
  rcases flResourceClaim_cases dev type index m.claims with ⟨failed, -⟩ | ⟨resource, -, free, claimed⟩
  · rw [failed]
    exact sound
  · rw [claimed]
    refine ⟨sound.owned.mono (fun _ => id) fun _ => mem_append_left _, ?_, sound.known, ?_⟩
    · intro claim member
      rcases mem_append.mp member with old | new
      · exact sound.alive claim old
      · obtain rfl := mem_singleton.mp new
        exact alive
    · have room := (not_or.mp free).1
      simp only [length_append, length_singleton]
      omega

/-! ## Binding and unbinding -/

structure Pending (m : Model) (dev : Device) : Prop where
  alive : dev.id ∈ m.live
  fresh : ∀ claim ∈ m.claims, claim.owner ≠ dev.id
  unhandled : Unhandled m.irq dev.id

theorem Sound.attempt (sound : Sound m) (pending : Pending m dev) {driver : Driver} (tidy : driver.Tidy dev) :
    Sound (tryDriver driver dev m).2 ∧ ((tryDriver driver dev m).1 = false → Pending (tryDriver driver dev m).2 dev) ∧
      (tryDriver driver dev m).2.drivers = m.drivers := by
  have alive : ∀ claim ∈ m.claims ++ dev.claims, claim.owner ∈ m.live := by
    intro claim member
    rcases mem_append.mp member with old | new
    · exact sound.alive claim old
    · exact owned_claims dev claim new ▸ pending.alive
  have larger : Owned m.live (m.claims ++ dev.claims) m.irq := sound.owned.mono (fun _ => id) fun _ => mem_append_left _
  have attached := larger.runCalls alive (driver.attaches dev).1
  rcases tryDriver_cases driver sound.small pending.fresh with
    ⟨-, failed⟩ | ⟨-, refused, failed⟩ | ⟨claimable, -, bound⟩
  · rw [failed]
    exact ⟨sound, fun _ => pending, rfl⟩
  · have unhandled := tidy refused (m.claims ++ dev.claims) m.irq pending.unhandled
    have kept (claim : ResourceClaim) (member : claim ∈ m.claims ++ dev.claims) (other : claim.owner ≠ dev.id) :
        claim ∈ m.claims :=
      (mem_append.mp member).resolve_right fun new => other (owned_claims dev claim new)
    have smaller := attached.released unhandled (fun _ alive _ => alive) kept
    rw [failed]
    exact ⟨⟨smaller, sound.alive, sound.known, sound.small⟩, fun _ => ⟨pending.alive, pending.fresh, unhandled⟩, rfl⟩
  · have room : (m.claims ++ dev.claims).length ≤ maxResources := by simpa [Device.claims] using claimable.1
    rw [bound]
    exact ⟨⟨attached.runCalls alive _, alive, sound.known, room⟩, (by simp), rfl⟩

theorem Sound.logged (sound : Sound m) (attempts : List Attempt) : Sound { m with attempts } :=
  ⟨sound.owned, sound.alive, sound.known, sound.small⟩

theorem Sound.attempts (sound : Sound m) (pending : Pending m dev) (tidy : TidyOn drivers dev.desc) :
    Sound (tryDrivers dev drivers m).2 ∧
      ((tryDrivers dev drivers m).1 = false → Pending (tryDrivers dev drivers m).2 dev) ∧
      (tryDrivers dev drivers m).2.drivers = m.drivers := by
  induction drivers generalizing m with
  | nil => exact ⟨sound, fun _ => pending, rfl⟩
  | cons driver rest ih =>
    obtain ⟨first, others⟩ := forall_mem_cons.mp tidy
    by_cases matched : driverMatches driver dev.desc = true
    · by_cases probed : driver.probes dev = true
      · obtain ⟨⟨bound, m'⟩, tried⟩ : ∃ result, tryDriver driver dev m = result := ⟨_, rfl⟩
        have kept := sound.attempt pending (first matched dev.id)
        rw [tried] at kept
        obtain ⟨sound', pending', drivers'⟩ := kept
        have logged := sound'.logged (m'.attempts ++ [⟨m.claims, m'.claims, bound⟩])
        rw [tryDrivers_attempt rest matched probed tried]
        cases bound with
        | true => exact ⟨logged, nofun, drivers'⟩
        | false =>
          obtain ⟨alive, fresh, unhandled⟩ := pending' rfl
          obtain ⟨final, pending'', same⟩ := ih logged ⟨alive, fresh, unhandled⟩ others
          exact ⟨final, pending'', same.trans drivers'⟩
      · have skipped : tryDrivers dev (driver :: rest) m = tryDrivers dev rest m := by
          simp [tryDrivers, matched, probed]
        rw [skipped]
        exact ih sound pending others
    · have skipped : tryDrivers dev (driver :: rest) m = tryDrivers dev rest m := by
        simp [tryDrivers, matched]
      rw [skipped]
      exact ih sound pending others

theorem Sound.create (sound : Sound m) : Sound m.create where
  owned := sound.owned.mono (fun _ => mem_append_left _) fun _ => id
  alive := fun claim member => mem_append_left _ (sound.alive claim member)
  known := by
    intro id member
    rcases mem_append.mp member with old | new
    · exact Nat.lt_succ_of_lt (sound.known id old)
    · exact mem_singleton.mp new ▸ Nat.lt_succ_self _
  small := sound.small

theorem pending_create (sound : Sound m) (desc : DeviceDesc) : Pending m.create ⟨m.nextId, desc⟩ where
  alive := mem_append_right _ (mem_singleton_self _)
  fresh := fun claim member => ne_of_lt (sound.known _ (sound.alive claim member))
  unhandled := by
    intro i handled same
    obtain ⟨id, owner, alive, -⟩ := sound.owned i handled
    have this_one : id = m.nextId := some.inj (owner.symm.trans same)
    exact lt_irrefl _ (this_one ▸ sound.known id alive)

theorem Sound.destroy (sound : Sound m) (pending : Pending m dev) : Sound (m.destroy dev) where
  owned := sound.owned.released pending.unhandled
    (fun _ alive other => mem_filter.mpr ⟨alive, decide_eq_true other⟩) fun _ member _ => member
  alive := fun claim member =>
    mem_filter.mpr ⟨sound.alive claim member, decide_eq_true (pending.fresh claim member)⟩
  known := fun id member => sound.known id (mem_filter.mp member).1
  small := sound.small

theorem Sound.bindDevice (sound : Sound m) {entry : Enumerated} (tidy : TidyOn m.drivers entry.desc) :
    Sound (bindDevice entry m) ∧ (Drivers.bindDevice entry m).drivers = m.drivers := by
  by_cases created : entry.created = true
  · let dev := Device.mk m.nextId entry.desc
    obtain ⟨⟨bound, m'⟩, tried⟩ : ∃ result, tryDrivers dev m.drivers m.create = result := ⟨_, rfl⟩
    have kept := sound.create.attempts (pending_create sound entry.desc) tidy
    rw [tried] at kept
    obtain ⟨sound', pending, drivers⟩ := kept
    rw [bindDevice_eq created tried]
    cases bound with
    | true => exact ⟨sound', drivers⟩
    | false => exact ⟨sound'.destroy (pending rfl), drivers⟩
  · have same : Drivers.bindDevice entry m = m := by simp [Drivers.bindDevice, created]
    rw [same]
    exact ⟨sound, rfl⟩

theorem Sound.bindDevices (sound : Sound m) {bus : List Enumerated}
    (tidy : ∀ entry ∈ bus, TidyOn m.drivers entry.desc) : Sound (bindDevices bus m) := by
  induction bus generalizing m with
  | nil => exact sound
  | cons entry rest ih =>
    rw [bindDevices]
    split
    · obtain ⟨first, others⟩ := forall_mem_cons.mp tidy
      obtain ⟨sound', drivers⟩ := sound.bindDevice first
      exact ih sound' (drivers ▸ others)
    · exact sound

theorem unbindDevices_live (devices : List Bound) (m : Model) :
    (unbindDevices devices m).nextId = m.nextId ∧ ∀ id ∈ (unbindDevices devices m).live, id ∈ m.live := by
  induction devices generalizing m with
  | nil => exact ⟨rfl, fun _ => id⟩
  | cons bound rest ih =>
    refine ⟨(ih _).1.trans ?_, fun id member => ?_⟩
    · split <;> rfl
    · have before := (mem_filter.mp ((ih _).2 id member)).1
      split at before <;> exact before

theorem Sound.shutdown (sound : Sound m) : Sound (flDriversShutdown m) := by
  obtain ⟨next, fewer⟩ := unbindDevices_live m.devices.reverse m
  refine ⟨nofun, nofun, fun id member => ?_, Nat.zero_le _⟩
  change id < (unbindDevices m.devices.reverse m).nextId
  rw [next]
  exact sound.known id (fewer id member)

theorem Sound.init (sound : Sound m) {bus : List Enumerated} (tidy : ∀ entry ∈ bus, TidyOn m.drivers entry.desc)
    (returned : flDriversInit bus m = some m') : Sound m' := by
  unfold flDriversInit at returned
  split at returned
  · exact some.inj returned ▸ sound
  · split at returned
    · cases returned
    · obtain ⟨owned, alive, known, small⟩ := sound.bindDevices tidy
      cases returned
      exact ⟨owned, alive, known, small⟩

theorem Sound.call (sound : Sound m) {call : ModelCall} (defined : call.Defined m)
    (tidy : TidyCall m call) (returned : call.run m = some m') : Sound m' := by
  cases call with
  | registerDriver driver =>
    change flDriverRegistryRegister driver m = some m' at returned
    unfold flDriverRegistryRegister at returned
    split at returned
    · cases returned
    · cases returned
      exact ⟨sound.owned, sound.alive, sound.known, sound.small⟩
  | init bus => exact sound.init tidy returned
  | shutdown => exact some.inj returned ▸ sound.shutdown
  | irq call => exact some.inj returned ▸ sound.interrupts [call]
  | claim dev type index => exact some.inj returned ▸ sound.claim defined type index
  | releaseAll dev => exact some.inj returned ▸ sound.release tidy

theorem sound_of_reaches (reached : ModelReaches TidyCall m) : Sound m := by
  refine reached.invariant ⟨nofun, nofun, nofun, Nat.zero_le _⟩ ?_
  exact fun _ _ _ sound tidy returned => sound.call returned.1 tidy returned.2

theorem flIrqDispatch_runs {irq : Int} {table table' : IrqTable} {handler : Handler} {owner : Option Nat}
    (dispatched : flIrqDispatch irq table = some (handler, owner, table')) :
    ∃ i, irqIndex irq = some i ∧ (table i).handler = some handler ∧ (table i).owner = owner := by
  unfold flIrqDispatch at dispatched
  split at dispatched
  · cases dispatched
  · next i inside =>
      split at dispatched
      · next h registered =>
          simp only [some.injEq, Prod.mk.injEq] at dispatched
          exact ⟨i, inside, dispatched.1 ▸ registered, dispatched.2.1⟩
      · cases dispatched

/-- If handlers are unregistered before their device is released, each belongs to a device that claims its interrupt. -/
theorem interrupts_owned {m : Model} (reached : ModelReaches TidyCall m) : Owned m.live m.claims m.irq ∧
      ∀ irq handler owner table, flIrqDispatch irq m.irq = some (handler, owner, table) →
        ∃ i id, irqIndex irq = some i ∧ owner = some id ∧ id ∈ m.live ∧
          ∃ claim ∈ m.claims, claim.owner = id ∧ claim.resource.type = .irq ∧ claim.resource.start.toNat = i := by
  have sound := sound_of_reaches reached
  refine ⟨sound.owned, fun irq handler owner table dispatched => ?_⟩
  obtain ⟨i, inside, registered, named⟩ := flIrqDispatch_runs dispatched
  obtain ⟨id, owns, facts⟩ := sound.owned i (isSome_of_eq_some registered)
  exact ⟨i, id, inside, named.symm.trans owns, facts⟩

/-! ## A driver that fails after it has registered a handler -/

def irqLine : Fin maxIrq := ⟨3, by decide⟩

def irqDevice : Enumerated := ⟨⟨.synth, 0, 0, [], ['d'], [⟨.irq, 3, 1, by decide⟩]⟩, true⟩

def driverWith (attach : Device → List IrqCall × Bool) : Driver :=
  ⟨0, 0, none, some ['d'], none, some attach, none, none, none⟩

def registers (dev : Device) : IrqCall := .registerDevice dev 0 (some ⟨1, 0⟩)

theorem unhandled_unregisterDevice (dev : Device) (table : IrqTable) :
    Unhandled (flIrqUnregisterDevice dev table) dev.id := by
  intro i handled
  unfold flIrqUnregisterDevice at handled ⊢
  split
  · nofun
  · next other => exact other

def retrying : List Driver :=
  [driverWith fun dev => ([registers dev, .unregisterDevice dev], false), driverWith fun dev => ([registers dev], true)]

theorem tidy_retrying (desc : DeviceDesc) : TidyOn retrying desc := by
  intro driver member _ id failed claims table _
  rcases mem_cons.mp member with rfl | rest
  · exact unhandled_unregisterDevice ⟨id, desc⟩ _
  · obtain rfl := mem_singleton.mp rest
    cases failed

theorem reaches_register {allowed : Model → ModelCall → Prop}
    (reached : ModelReaches allowed (.empty drivers)) (driver : Driver)
    (ok : allowed (.empty drivers) (.registerDriver driver)) (room : drivers.length < maxDrivers) :
    ModelReaches allowed (.empty (drivers ++ [driver])) := by
  have returned : (ModelCall.registerDriver driver).run (.empty drivers) = some (.empty (drivers ++ [driver])) :=
    if_neg (not_le.mpr room)
  exact reached.call (.registerDriver driver) ok ⟨trivial, returned⟩

theorem interrupts_owned_after_retry :
    ∃ m, flDriversInit [irqDevice] (.empty retrying) = some m ∧ (m.irq irqLine).handler.isSome ∧
      Owned m.live m.claims m.irq := by
  have runs : (flDriversInit [irqDevice] (.empty retrying)).map (fun m => (m.irq irqLine).handler.isSome) =
      some true := by decide +kernel
  obtain ⟨m, ran, handled⟩ := map_eq_some_iff.mp runs
  have registered : ModelReaches TidyCall (.empty retrying) :=
    reaches_register (reaches_register .start _ trivial (by decide)) _ trivial (by decide)
  have reached : ModelReaches TidyCall m :=
    registered.call (.init [irqDevice]) (fun entry _ => tidy_retrying entry.desc) ⟨trivial, ran⟩
  exact ⟨m, ran, handled, (interrupts_owned reached).1⟩

def careless : Driver := driverWith fun dev => ([registers dev], false)

theorem failed_attach_leaves_handler : ∃ m, ModelReaches (fun _ _ => True) m ∧ ¬ Owned m.live m.claims m.irq := by
  have runs : (flDriversInit [irqDevice] (.empty [careless])).map (fun m => ((m.irq irqLine).handler.isSome, m.live)) =
      some (true, []) := by decide
  obtain ⟨m, ran, facts⟩ := map_eq_some_iff.mp runs
  simp only [Prod.mk.injEq] at facts
  have registered : ModelReaches (fun _ _ => True) (.empty [careless]) :=
    reaches_register .start careless trivial (by decide)
  have reached : ModelReaches (fun _ _ => True) m := registered.call (.init [irqDevice]) trivial ⟨trivial, ran⟩
  refine ⟨m, reached, fun owned => ?_⟩
  obtain ⟨id, -, alive, -⟩ := owned irqLine facts.1
  rw [facts.2] at alive
  cases alive

end Flinstone.Drivers
