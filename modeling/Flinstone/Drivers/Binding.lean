import Flinstone.Drivers.Irq

/-!
# Binding drivers to devices

`fl_drivers_init` and `fl_drivers_shutdown` of `driver_model.c`.
-/

namespace Flinstone.Drivers
open Flinstone.Lib List

-- a null pointer is `none`; `true` is the return value `0`
structure Driver where
  pciClass : BitVec 16
  pciSubclass : BitVec 16
  dtCompatible : Option Text
  synthId : Option Text
  probe : Option (Device → Bool)
  attach : Option (Device → List IrqCall × Bool)
  start : Option (Device → List IrqCall)
  stop : Option (Device → List IrqCall)
  detach : Option (Device → List IrqCall)

def driverMatches (driver : Driver) (dev : DeviceDesc) : Bool :=
  match driver.synthId, driver.dtCompatible, dev.busType with
  | some synthId, _, .synth => synthId = dev.synthId
  | _, some dtCompatible, .dt => dtCompatible = dev.dtCompatible
  | _, _, .pci =>
    if driver.pciClass ≠ 0 ∧ driver.pciClass ≠ dev.classCode.setWidth 16 then false
    else if driver.pciSubclass ≠ 0 ∧ driver.pciSubclass ≠ dev.subclass.setWidth 16 then false
    else driver.pciClass ≠ 0 ∨ driver.pciSubclass ≠ 0
  | _, _, _ => false

inductive DriverState where
  | none | probed | attached | started | stopped
  deriving DecidableEq

structure Bound where
  dev : Device
  driver : Driver
  state : DriverState

def maxDevices : Nat := 32

structure Attempt where
  before : Claims
  after : Claims
  bound : Bool

/-- `live` and `destroyed` are the devices that exist and those that were freed, `attempts` what was tried. -/
structure Model where
  drivers : List Driver
  devices : List Bound
  claims : Claims
  irq : IrqTable
  initialized : Bool
  nextId : Nat
  live : List Nat
  destroyed : List Nat
  attempts : List Attempt

def Model.empty (drivers : List Driver) : Model := ⟨drivers, [], [], flIrqInit, false, 0, [], [], []⟩

def Model.interrupts (calls : List IrqCall) (m : Model) : Model := { m with irq := runIrqCalls m.claims calls m.irq }

def Driver.probes (driver : Driver) (dev : Device) : Bool := driver.probe.elim true (· dev)

def Driver.attaches (driver : Driver) (dev : Device) : List IrqCall × Bool := driver.attach.elim ([], true) (· dev)

def called (callback : Option (Device → List IrqCall)) (dev : Device) : List IrqCall := callback.elim [] (· dev)

def maxDrivers : Nat := 32

-- `none`: `model_overflow_panic` does not return
def flDriverRegistryRegister (driver : Driver) (m : Model) : Option Model :=
  if m.drivers.length ≥ maxDrivers then none else some { m with drivers := m.drivers ++ [driver] }

/-! ## `fl_drivers_init` -/

def Model.release (dev : Device) (m : Model) : Model := { m with claims := flResourceReleaseAll dev m.claims }

-- the device takes the next place of `s_devices` before its resources are claimed
def tryDriver (driver : Driver) (dev : Device) (m : Model) : Bool × Model :=
  let place (state : DriverState) (m' : Model) : Model := { m' with devices := m.devices ++ [⟨dev, driver, state⟩] }
  let drop (m' : Model) : Model := { m'.release dev with devices := m.devices }
  let (claimed, claims) := claimDeviceResources dev m.claims
  let m₁ := { place .probed m with claims }
  if !claimed then (false, drop m₁)
  else
    let (calls, attached) := driver.attaches dev
    let m₂ := m₁.interrupts calls
    if !attached then (false, drop m₂)
    else
      let m₃ := (place .attached m₂).interrupts (called driver.start dev)
      (true, place .started m₃)

def tryDrivers (dev : Device) : List Driver → Model → Bool × Model
  | [], m => (false, m)
  | driver :: rest, m =>
    if !driverMatches driver dev.desc then tryDrivers dev rest m
    else if !driver.probes dev then tryDrivers dev rest m
    else
      let (bound, m') := tryDriver driver dev m
      let logged := { m' with attempts := m'.attempts ++ [⟨m.claims, m'.claims, bound⟩] }
      if bound then (true, logged) else tryDrivers dev rest logged

/-- What the bus reports, and whether `kmalloc` has room for the device. -/
structure Enumerated where
  desc : DeviceDesc
  created : Bool

def Model.create (m : Model) : Model := { m with nextId := m.nextId + 1, live := m.live ++ [m.nextId] }

def Model.destroy (dev : Device) (m : Model) : Model :=
  { m with live := m.live.filter (· ≠ dev.id), destroyed := m.destroyed ++ [dev.id] }

def bindDevice (entry : Enumerated) (m : Model) : Model :=
  if !entry.created then m
  else
    let dev : Device := ⟨m.nextId, entry.desc⟩
    let (bound, m') := tryDrivers dev m.drivers m.create
    if bound then m' else m'.destroy dev

def bindDevices : List Enumerated → Model → Model
  | [], m => m
  | entry :: rest, m => if m.devices.length < maxDevices then bindDevices rest (bindDevice entry m) else m

def flDriversInit (bus : List Enumerated) (m : Model) : Option Model :=
  if m.initialized then some m
  else if bus.length > maxDevices then none
  else some { bindDevices bus m with initialized := true }

/-! ## `fl_drivers_shutdown` -/

def unbindDevices : List Bound → Model → Model
  | [], m => m
  | bound :: rest, m =>
    let stopped := if bound.state = .started then m.interrupts (called bound.driver.stop bound.dev) else m
    let detached := stopped.interrupts (called bound.driver.detach bound.dev)
    unbindDevices rest ((detached.release bound.dev).destroy bound.dev)

def flDriversShutdown (m : Model) : Model :=
  { unbindDevices m.devices.reverse m with
    drivers := [], devices := [], claims := [], irq := flIrqInit, initialized := false }

def Device.claims (dev : Device) : Claims := dev.desc.resources.map fun resource => ⟨resource, dev.id⟩

def Claimable (claims : Claims) (resources : List Resource) : Prop :=
  claims.length + resources.length ≤ maxResources ∧
    (∀ resource ∈ resources, ∀ claim ∈ claims, ¬ Conflict claim.resource resource) ∧
    resources.Pairwise fun a b => ¬ Conflict a b

instance (a b : Resource) : Decidable (Conflict a b) := decidable_of_iff _ (resourceOverlaps_iff a b)

instance (claims : Claims) (resources : List Resource) : Decidable (Claimable claims resources) :=
  inferInstanceAs (Decidable (_ ∧ _))

theorem claimable_cons (claims : Claims) (resource : Resource) (rest : List Resource) (owner : Nat) :
    Claimable claims (resource :: rest) ↔
      ¬ Blocked claims resource ∧ Claimable (claims ++ [⟨resource, owner⟩]) rest := by
  constructor
  · rintro ⟨room, apart, pairwise⟩
    obtain ⟨head, tail⟩ := pairwise_cons.mp pairwise
    rw [length_cons] at room
    refine ⟨?_, ?_, ?_, tail⟩
    · rintro (full | ⟨claim, member, conflict⟩)
      · omega
      · exact apart resource mem_cons_self claim member conflict
    · rw [length_append, length_singleton]
      omega
    · intro later member claim held
      rcases mem_append.mp held with old | new
      · exact apart later (mem_cons_of_mem _ member) claim old
      · obtain rfl := mem_singleton.mp new
        exact head later member
  · rintro ⟨free, room, apart, tail⟩
    obtain ⟨-, unclaimed⟩ := not_or.mp free
    rw [length_append, length_singleton] at room
    refine ⟨?_, ?_, pairwise_cons.mpr ⟨fun later member => ?_, tail⟩⟩
    · rw [length_cons]
      omega
    · intro other member claim held conflict
      rcases mem_cons.mp member with rfl | later
      · exact unclaimed ⟨claim, held, conflict⟩
      · exact apart other later claim (mem_append_left _ held) conflict
    · exact apart later member _ (mem_append_right _ (mem_singleton_self _))

theorem claimEach_spec (dev : Device) {claims : Claims} (small : claims.length ≤ maxResources)
    (resources : List Resource) :
    Claimable claims resources ∧ claimDeviceResources.claimEach dev resources claims =
        (true, claims ++ resources.map fun resource => ⟨resource, dev.id⟩) ∨
      ¬ Claimable claims resources ∧ ∃ part : Claims, (∀ claim ∈ part, claim.owner = dev.id) ∧
        claimDeviceResources.claimEach dev resources claims = (false, claims ++ part) := by
  induction resources generalizing claims with
  | nil => exact .inl ⟨⟨small, by simp, .nil⟩, by simp [claimDeviceResources.claimEach]⟩
  | cons resource rest ih =>
    rw [claimDeviceResources.claimEach, claimable_cons claims resource rest dev.id]
    rcases claimResourceDesc_spec dev resource claims with ⟨blocked, failed⟩ | ⟨free, claimed⟩
    · rw [failed]
      exact .inr ⟨fun both => both.1 blocked, [], by simp, by simp⟩
    · have room : (claims ++ [ResourceClaim.mk resource dev.id]).length ≤ maxResources := by
        have := (not_or.mp free).1
        rw [length_append, length_singleton]
        omega
      rw [claimed]
      rcases ih room with ⟨claimable, all⟩ | ⟨unclaimable, part, owned, stopped⟩
      · exact .inl ⟨⟨free, claimable⟩, by simp [all]⟩
      · refine .inr ⟨fun both => unclaimable both.2, ⟨resource, dev.id⟩ :: part, ?_, by simp [stopped]⟩
        exact forall_mem_cons.mpr ⟨rfl, owned⟩

variable {dev : Device} {m m' : Model} {bound : Bool} {entry : Enumerated}

theorem flResourceReleaseAll_append {claims new : Claims}
    (fresh : ∀ claim ∈ claims, claim.owner ≠ dev.id) (owned : ∀ claim ∈ new, claim.owner = dev.id) :
    flResourceReleaseAll dev (claims ++ new) = claims :=
  sweep_suffix _ (fun claim member => decide_eq_false (fresh claim member))
    fun claim member => decide_eq_true (owned claim member)

theorem owned_claims (dev : Device) : ∀ claim ∈ dev.claims, claim.owner = dev.id := by
  intro claim member
  obtain ⟨resource, -, rfl⟩ := mem_map.mp member
  rfl

theorem tryDriver_cases (driver : Driver) (small : m.claims.length ≤ maxResources)
    (fresh : ∀ claim ∈ m.claims, claim.owner ≠ dev.id) :
    let attached := { m with irq := runIrqCalls (m.claims ++ dev.claims) (driver.attaches dev).1 m.irq }
    ¬ Claimable m.claims dev.desc.resources ∧ tryDriver driver dev m = (false, m) ∨
      Claimable m.claims dev.desc.resources ∧ (driver.attaches dev).2 = false ∧
        tryDriver driver dev m = (false, attached) ∨
      Claimable m.claims dev.desc.resources ∧ (driver.attaches dev).2 = true ∧ tryDriver driver dev m = (true, { m with
          devices := m.devices ++ [⟨dev, driver, .started⟩]
          claims := m.claims ++ dev.claims
          irq := runIrqCalls (m.claims ++ dev.claims) (called driver.start dev) attached.irq }) := by
  intro attached
  unfold tryDriver
  rcases claimEach_spec dev small dev.desc.resources with ⟨claimable, all⟩ | ⟨unclaimable, part, owned, stopped⟩
  · right
    have claimed : claimDeviceResources dev m.claims = (true, m.claims ++ dev.claims) := all
    rw [claimed]
    cases outcome : (driver.attaches dev).2 with
    | false =>
      refine .inl ⟨claimable, rfl, ?_⟩
      simp [outcome, Model.release, Model.interrupts, flResourceReleaseAll_append fresh (owned_claims dev), attached]
    | true =>
      refine .inr ⟨claimable, rfl, ?_⟩
      simp [outcome, Model.interrupts, attached]
  · have failed : claimDeviceResources dev m.claims = (false, m.claims ++ part) := stopped
    rw [failed]
    refine .inl ⟨unclaimable, ?_⟩
    simp [Model.release, flResourceReleaseAll_append fresh owned]

def Fits (claims : Claims) (dev : Device) (driver : Driver) : Prop :=
  driverMatches driver dev.desc = true ∧ driver.probes dev = true ∧ Claimable claims dev.desc.resources ∧
    (driver.attaches dev).2 = true

instance (claims : Claims) (dev : Device) (driver : Driver) : Decidable (Fits claims dev driver) :=
  inferInstanceAs (Decidable (_ ∧ _))

def Restoring (attempts : List Attempt) : Prop := ∀ a ∈ attempts, a.bound = false → a.after = a.before

theorem Restoring.append {attempts : List Attempt} (restoring : Restoring attempts) {attempt : Attempt}
    (last : attempt.bound = false → attempt.after = attempt.before) : Restoring (attempts ++ [attempt]) := by
  intro a member
  rcases mem_append.mp member with old | new
  · exact restoring a old
  · exact mem_singleton.mp new ▸ last

theorem tryDrivers_attempt {driver : Driver} (rest : List Driver)
    (matched : driverMatches driver dev.desc = true) (probed : driver.probes dev = true)
    (tried : tryDriver driver dev m = (bound, m')) :
    let logged := { m' with attempts := m'.attempts ++ [⟨m.claims, m'.claims, bound⟩] }
    tryDrivers dev (driver :: rest) m = if bound then (true, logged) else tryDrivers dev rest logged := by
  simp [tryDrivers, matched, probed, tried]

section
variable {dev : Device} {m : Model} (small : m.claims.length ≤ maxResources)
  (fresh : ∀ claim ∈ m.claims, claim.owner ≠ dev.id) (restoring : Restoring m.attempts)
include small fresh restoring

theorem tryDrivers_bind {driver : Driver} (rest : List Driver) (fits : Fits m.claims dev driver) :
    ∃ irq attempts, Restoring attempts ∧ tryDrivers dev (driver :: rest) m = (true, { m with
      devices := m.devices ++ [⟨dev, driver, .started⟩], claims := m.claims ++ dev.claims, irq, attempts }) := by
  obtain ⟨matched, probed, claimable, attached⟩ := fits
  rcases tryDriver_cases driver small fresh with ⟨unclaimable, -⟩ | ⟨-, refused, -⟩ | ⟨-, -, bound⟩
  · exact absurd claimable unclaimable
  · rw [attached] at refused
    cases refused
  · have last : Restoring (m.attempts ++ [⟨m.claims, m.claims ++ dev.claims, true⟩]) := restoring.append nofun
    exact ⟨_, _, last, tryDrivers_attempt rest matched probed bound⟩

theorem tryDrivers_skip {driver : Driver} (rest : List Driver) (unfit : ¬ Fits m.claims dev driver) :
    ∃ irq attempts, Restoring attempts ∧
      tryDrivers dev (driver :: rest) m = tryDrivers dev rest { m with irq, attempts } := by
  have last : Restoring (m.attempts ++ [⟨m.claims, m.claims, false⟩]) := restoring.append fun _ => rfl
  by_cases matched : driverMatches driver dev.desc = true
  · by_cases probed : driver.probes dev = true
    · rcases tryDriver_cases driver small fresh with ⟨-, failed⟩ | ⟨-, -, failed⟩ | ⟨claimable, attached, -⟩
      · exact ⟨m.irq, _, last, tryDrivers_attempt rest matched probed failed⟩
      · exact ⟨_, _, last, tryDrivers_attempt rest matched probed failed⟩
      · exact absurd ⟨matched, probed, claimable, attached⟩ unfit
    · refine ⟨m.irq, m.attempts, restoring, ?_⟩
      simp [tryDrivers, matched, probed]
  · refine ⟨m.irq, m.attempts, restoring, ?_⟩
    simp [tryDrivers, matched]

end

theorem tryDrivers_cases (drivers : List Driver) (small : m.claims.length ≤ maxResources)
    (fresh : ∀ claim ∈ m.claims, claim.owner ≠ dev.id) (restoring : Restoring m.attempts) :
    ∃ irq attempts, Restoring attempts ∧ ((drivers.find? fun driver => Fits m.claims dev driver) = none ∧
          tryDrivers dev drivers m = (false, { m with irq, attempts }) ∨
        ∃ driver, (drivers.find? fun driver => Fits m.claims dev driver) = some driver ∧
          tryDrivers dev drivers m = (true, { m with
            devices := m.devices ++ [⟨dev, driver, .started⟩], claims := m.claims ++ dev.claims, irq, attempts })) := by
  induction drivers generalizing m with
  | nil => exact ⟨m.irq, m.attempts, restoring, .inl ⟨rfl, rfl⟩⟩
  | cons driver rest ih =>
    by_cases fits : Fits m.claims dev driver
    · obtain ⟨irq, attempts, restored, bound⟩ := tryDrivers_bind small fresh restoring rest fits
      exact ⟨irq, attempts, restored, .inr ⟨driver, find?_cons_of_pos (by simpa using fits), bound⟩⟩
    · obtain ⟨irq, attempts, restored, skipped⟩ := tryDrivers_skip small fresh restoring rest fits
      rw [skipped, find?_cons_of_neg (by simpa using fits)]
      let next : Model := { m with irq, attempts }
      exact ih (show next.claims.length ≤ _ from small) fresh restored

def devicesOf (first : Nat) : List Enumerated → List Device
  | [] => []
  | entry :: rest =>
    if entry.created then ⟨first, entry.desc⟩ :: devicesOf (first + 1) rest else devicesOf first rest

theorem le_of_mem_devicesOf {first : Nat} {bus : List Enumerated} (member : dev ∈ devicesOf first bus) :
    first ≤ dev.id := by
  induction bus generalizing first with
  | nil => cases member
  | cons entry rest ih =>
    rw [devicesOf] at member
    split at member
    · rcases mem_cons.mp member with rfl | later
      · exact le_refl _
      · exact Nat.le_of_succ_le (ih later)
    · exact ih member

def claimsOf (devices : List Bound) : Claims := devices.flatMap fun bound => bound.dev.claims

structure Consistent (m : Model) : Prop where
  claims : m.claims = claimsOf m.devices
  small : m.claims.length ≤ maxResources
  known : ∀ bound ∈ m.devices, bound.dev.id < m.nextId
  ordered : m.devices.Pairwise fun a b => a.dev.id < b.dev.id
  gone : ∀ id ∈ m.destroyed, id < m.nextId
  restoring : Restoring m.attempts

theorem Consistent.fresh (consistent : Consistent m) (desc : DeviceDesc) :
    ∀ claim ∈ m.claims, claim.owner ≠ (Device.mk m.nextId desc).id := by
  intro claim member same
  rw [consistent.claims] at member
  obtain ⟨bound, listed, owned⟩ := mem_flatMap.mp member
  have known := consistent.known bound listed
  rw [← owned_claims bound.dev claim owned, same] at known
  exact lt_irrefl _ known

def Model.boundTo (m : Model) (dev : Device) : Option Driver :=
  (m.devices.find? fun bound => bound.dev.id = dev.id).map (·.driver)

def Model.held (m : Model) (dev : Device) : Claims := claimsOf (m.devices.filter fun bound => bound.dev.id < dev.id)

def Settled (m : Model) (dev : Device) : Prop :=
  (m.boundTo dev = m.drivers.find? fun driver => Fits (m.held dev) dev driver) ∧
    m.destroyed.count dev.id = if (m.boundTo dev).isSome then 0 else 1

theorem bindDevice_eq (created : entry.created = true)
    (tried : tryDrivers ⟨m.nextId, entry.desc⟩ m.drivers m.create = (bound, m')) :
    bindDevice entry m = if bound then m' else m'.destroy ⟨m.nextId, entry.desc⟩ := by
  simp [bindDevice, created, tried]

theorem bindDevice_cases (consistent : Consistent m) (created : entry.created = true) :
    let dev := Device.mk m.nextId entry.desc
    Consistent (bindDevice entry m) ∧ (bindDevice entry m).nextId = m.nextId + 1 ∧
      (bindDevice entry m).drivers = m.drivers ∧
      ((m.drivers.find? fun driver => Fits m.claims dev driver) = none ∧
          (bindDevice entry m).devices = m.devices ∧ (bindDevice entry m).destroyed = m.destroyed ++ [dev.id] ∨
        ∃ driver, (m.drivers.find? fun driver => Fits m.claims dev driver) = some driver ∧
          (bindDevice entry m).devices = m.devices ++ [⟨dev, driver, .started⟩] ∧
          (bindDevice entry m).destroyed = m.destroyed) := by
  intro dev
  have small : m.create.claims.length ≤ maxResources := consistent.small
  obtain ⟨irq, attempts, restoring, tried⟩ :=
    tryDrivers_cases m.drivers small (consistent.fresh entry.desc) consistent.restoring
  rcases tried with ⟨none, failed⟩ | ⟨driver, first, bound⟩
  · have result : bindDevice entry m = Model.destroy dev { m.create with irq, attempts } := bindDevice_eq created failed
    rw [result]
    refine ⟨⟨consistent.claims, small, ?_, consistent.ordered, ?_, restoring⟩, rfl, rfl, .inl ⟨none, rfl, rfl⟩⟩
    · exact fun bound member => Nat.lt_succ_of_lt (consistent.known bound member)
    · intro id member
      rcases mem_append.mp member with old | new
      · exact Nat.lt_succ_of_lt (consistent.gone id old)
      · exact mem_singleton.mp new ▸ Nat.lt_succ_self _
  · have result : bindDevice entry m = { m.create with
        devices := m.devices ++ [⟨dev, driver, .started⟩], claims := m.claims ++ dev.claims, irq, attempts } :=
      bindDevice_eq created bound
    have found := find?_some first
    have fits : Fits m.claims dev driver := of_decide_eq_true found
    rw [result]
    refine ⟨⟨?_, ?_, ?_, ?_, ?_, restoring⟩, rfl, rfl, .inr ⟨driver, first, rfl, rfl⟩⟩
    · simp [claimsOf, consistent.claims]
    · simpa [Device.claims] using fits.2.2.1.1
    · intro bound member
      rcases mem_append.mp member with old | new
      · exact Nat.lt_succ_of_lt (consistent.known bound old)
      · obtain rfl := mem_singleton.mp new
        exact Nat.lt_succ_self m.nextId
    · refine pairwise_append.mpr ⟨consistent.ordered, pairwise_singleton .., ?_⟩
      intro bound member last single
      exact mem_singleton.mp single ▸ consistent.known bound member
    · exact fun id member => Nat.lt_succ_of_lt (consistent.gone id member)

section
variable {m : Model} {dev : Device} {before after : List Bound}

theorem held_eq (split : m.devices = before ++ after) (earlier : ∀ bound ∈ before, bound.dev.id < dev.id)
    (later : ∀ bound ∈ after, dev.id ≤ bound.dev.id) : m.held dev = claimsOf before := by
  have kept : before.filter (fun bound => bound.dev.id < dev.id) = before :=
    filter_eq_self.mpr fun bound member => decide_eq_true (earlier bound member)
  have dropped : after.filter (fun bound => bound.dev.id < dev.id) = [] :=
    filter_eq_nil_iff.mpr fun bound member => by simpa using later bound member
  rw [Model.held, split, filter_append, kept, dropped, append_nil]

theorem boundTo_none (apart : ∀ bound ∈ m.devices, bound.dev.id ≠ dev.id) : m.boundTo dev = none := by
  have none : m.devices.find? (fun bound => bound.dev.id = dev.id) = none :=
    find?_eq_none.mpr fun bound member => by simpa using apart bound member
  rw [Model.boundTo, none, Option.map_none]

theorem boundTo_some {bound : Bound} (split : m.devices = before ++ bound :: after) (same : bound.dev.id = dev.id)
    (apart : ∀ bound ∈ before, bound.dev.id ≠ dev.id) : m.boundTo dev = some bound.driver := by
  have none : before.find? (fun bound => bound.dev.id = dev.id) = none :=
    find?_eq_none.mpr fun bound member => by simpa using apart bound member
  rw [Model.boundTo, split, find?_append, none, Option.none_or, find?_cons_of_pos (by simpa using same),
    Option.map_some]

theorem settled_of_unbound (split : m.devices = before ++ after) (earlier : ∀ bound ∈ before, bound.dev.id < dev.id)
    (later : ∀ bound ∈ after, dev.id < bound.dev.id)
    (none : (m.drivers.find? fun driver => Fits (claimsOf before) dev driver) = none)
    (once : m.destroyed.count dev.id = 1) : Settled m dev := by
  have unbound : m.boundTo dev = .none := boundTo_none fun bound member => by
    rw [split] at member
    rcases mem_append.mp member with old | new
    · exact ne_of_lt (earlier bound old)
    · exact ne_of_gt (later bound new)
  rw [Settled, unbound, held_eq split earlier fun bound member => le_of_lt (later bound member)]
  exact ⟨none.symm, once⟩

theorem settled_of_bound {driver : Driver} {state : DriverState}
    (split : m.devices = before ++ ⟨dev, driver, state⟩ :: after)
    (earlier : ∀ bound ∈ before, bound.dev.id < dev.id) (later : ∀ bound ∈ after, dev.id < bound.dev.id)
    (first : (m.drivers.find? fun driver => Fits (claimsOf before) dev driver) = some driver)
    (never : m.destroyed.count dev.id = 0) : Settled m dev := by
  have bound := boundTo_some split rfl fun bound member => ne_of_lt (earlier bound member)
  have from_here : ∀ bound ∈ ⟨dev, driver, state⟩ :: after, dev.id ≤ bound.dev.id :=
    forall_mem_cons.mpr ⟨le_refl _, fun bound member => le_of_lt (later bound member)⟩
  rw [Settled, bound, held_eq split earlier from_here]
  exact ⟨first.symm, never⟩

end

theorem bindDevices_spec (bus : List Enumerated) (consistent : Consistent m)
    (room : m.devices.length + bus.length ≤ maxDevices) :
    let result := bindDevices bus m
    Consistent result ∧ result.drivers = m.drivers ∧
      (∃ new, result.devices = m.devices ++ new ∧ ∀ bound ∈ new, bound.dev ∈ devicesOf m.nextId bus) ∧
      (∃ gone, result.destroyed = m.destroyed ++ gone ∧ ∀ id ∈ gone, m.nextId ≤ id) ∧
      ∀ dev ∈ devicesOf m.nextId bus, Settled result dev := by
  induction bus generalizing m with
  | nil => exact ⟨consistent, rfl, ⟨[], by simp [bindDevices]⟩, ⟨[], by simp [bindDevices]⟩, nofun⟩
  | cons entry rest ih =>
    rw [length_cons] at room
    intro result
    have step : result = bindDevices rest (bindDevice entry m) := by
      simp only [result]
      rw [bindDevices, if_pos (by omega)]
    rw [devicesOf]
    by_cases created : entry.created = true
    · rw [if_pos created]
      let dev := Device.mk m.nextId entry.desc
      obtain ⟨consistent', next, drivers, outcome⟩ := bindDevice_cases consistent created
      have earlier : ∀ bound ∈ m.devices, bound.dev.id < dev.id := consistent.known
      have gone_before : m.destroyed.count dev.id = 0 :=
        count_eq_zero.mpr fun member => Nat.lt_irrefl _ (consistent.gone _ member)
      have length : (bindDevice entry m).devices.length ≤ m.devices.length + 1 := by
        rcases outcome with ⟨-, same, -⟩ | ⟨driver, -, more, -⟩
        · rw [same]; omega
        · rw [more, length_append, length_singleton]
      obtain ⟨final, drivers', ⟨new, devices, listed⟩, ⟨gone, destroyed, above⟩, settled⟩ := ih consistent' (by omega)
      rw [← step] at final drivers' devices destroyed settled
      rw [next] at listed above settled
      have later : ∀ bound ∈ new, dev.id < bound.dev.id :=
        fun bound member => le_of_mem_devicesOf (listed bound member)
      have gone_after : gone.count dev.id = 0 := count_eq_zero.mpr fun member => Nat.lt_irrefl _ (above _ member)
      have more_listed : ∀ bound ∈ new, bound.dev ∈ dev :: devicesOf (m.nextId + 1) rest :=
        fun bound member => mem_cons_of_mem dev (listed bound member)
      have more_above : ∀ id ∈ gone, m.nextId ≤ id := fun id member => Nat.le_of_succ_le (above id member)
      rw [consistent.claims, ← drivers, ← drivers'] at outcome
      rw [drivers] at drivers'
      refine ⟨final, drivers', ?_⟩
      rcases outcome with ⟨none, same, destroys⟩ | ⟨driver, first, more, keeps⟩
      · rw [same] at devices
        rw [destroys, append_assoc] at destroyed
        have this_one : Settled result dev := by
          refine settled_of_unbound devices earlier later none ?_
          rw [destroyed, count_append, count_append, gone_before, gone_after, count_singleton_self]
        refine ⟨⟨new, devices, more_listed⟩, ⟨_, destroyed, ?_⟩, forall_mem_cons.mpr ⟨this_one, settled⟩⟩
        exact forall_mem_cons.mpr ⟨le_refl _, more_above⟩
      · rw [more, append_assoc] at devices
        rw [keeps] at destroyed
        have this_one : Settled result dev := by
          refine settled_of_bound devices earlier later first ?_
          rw [destroyed, count_append, gone_before, gone_after]
        refine ⟨⟨_, devices, ?_⟩, ⟨gone, destroyed, more_above⟩, forall_mem_cons.mpr ⟨this_one, settled⟩⟩
        exact forall_mem_cons.mpr ⟨mem_cons_self, more_listed⟩
    · have same : bindDevice entry m = m := by simp [bindDevice, created]
      rw [if_neg created, step, same]
      exact ih consistent (by omega)

/-- Every device has the first driver that fits, given the claims of the devices before it, or is destroyed. -/
theorem drivers_init_binds (drivers : List Driver) (bus : List Enumerated) :
    match flDriversInit bus (.empty drivers) with
    | none => maxDevices < bus.length
    | some m =>
      m.drivers = drivers ∧ (m.devices.map fun bound => bound.dev.id).Nodup ∧
        (∀ bound ∈ m.devices, bound.dev ∈ devicesOf 0 bus) ∧ (∀ dev ∈ devicesOf 0 bus, Settled m dev) ∧
        m.claims = claimsOf m.devices ∧ Restoring m.attempts := by
  have start : Consistent (.empty drivers) := by
    constructor <;> simp [Model.empty, claimsOf, Restoring]
  have unfolded : flDriversInit bus (.empty drivers) = if bus.length > maxDevices then none
      else some { bindDevices bus (.empty drivers) with initialized := true } := by
    rw [flDriversInit, if_neg (by simp [Model.empty])]
  rw [unfolded]
  by_cases long : bus.length > maxDevices
  · rw [if_pos long]
    exact long
  · rw [if_neg long]
    obtain ⟨final, same, ⟨new, devices, listed⟩, -, settled⟩ :=
      bindDevices_spec bus start (by simp [Model.empty]; omega)
    have listed' : ∀ bound ∈ (bindDevices bus (.empty drivers)).devices, bound.dev ∈ devicesOf 0 bus := by
      rw [devices]
      exact listed
    have distinct : ((bindDevices bus (.empty drivers)).devices.map fun bound => bound.dev.id).Nodup :=
      pairwise_map.mpr (final.ordered.imp Nat.ne_of_lt)
    exact ⟨same, distinct, listed', settled, final.claims, final.restoring⟩

end Flinstone.Drivers
