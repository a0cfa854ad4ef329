import Flinstone.Lib.SwapDelete
import Flinstone.Lib.Text

/-!
# Resource claims

`s_resources` of `driver_model.c`.
-/

namespace Flinstone.Drivers
open Flinstone.Lib List

inductive ResourceType where
  | ioport | mmio | irq | dma | synth
  deriving DecidableEq

/-- A range as the bus enumerator produces it: its end is at most `2 ^ 64`. -/
structure Resource where
  type : ResourceType
  start : BitVec 64
  size : BitVec 64
  fits : start.toNat + size.toNat ≤ 2 ^ 64
  deriving DecidableEq

inductive BusType where
  | pci | dt | synth
  deriving DecidableEq

structure DeviceDesc where
  busType : BusType
  classCode : BitVec 8
  subclass : BitVec 8
  dtCompatible : Text
  synthId : Text
  resources : List Resource
  deriving DecidableEq

structure Device where
  id : Nat
  desc : DeviceDesc
  deriving DecidableEq

structure ResourceClaim where
  resource : Resource
  owner : Nat
  deriving DecidableEq

abbrev Claims := List ResourceClaim

def maxResources : Nat := 64

def resourceOverlaps (a b : Resource) : Bool :=
  if a.type ≠ b.type then false
  else if a.type = .irq then a.start == b.start
  else if a.size = 0 ∨ b.size = 0 then false
  else a.start ≤ b.start + b.size - 1 && b.start ≤ a.start + a.size - 1

-- `false` is the return value `-1`
def claimResourceDesc (dev : Device) (resource : Resource) (claims : Claims) : Bool × Claims :=
  if claims.length ≥ maxResources then (false, claims)
  else if claims.any fun claim => resourceOverlaps claim.resource resource then (false, claims)
  else (true, claims ++ [⟨resource, dev.id⟩])

def claimLoop (dev : Device) (type : ResourceType) (index : Int) (claims : Claims) : Int → List Resource → Bool × Claims
  | _, [] => (false, claims)
  | seen, resource :: rest =>
    if resource.type ≠ type then claimLoop dev type index claims seen rest
    else if seen = index then claimResourceDesc dev resource claims
    else claimLoop dev type index claims (seen + 1) rest

def flResourceClaim (dev : Device) (type : ResourceType) (index : Int) (claims : Claims) : Bool × Claims :=
  if index < 0 then (false, claims) else claimLoop dev type index claims 0 dev.desc.resources

def flResourceReleaseAll (dev : Device) (claims : Claims) : Claims := sweep (fun claim => claim.owner = dev.id) claims 0

def claimDeviceResources (dev : Device) (claims : Claims) : Bool × Claims := claimEach dev.desc.resources claims
where
  claimEach : List Resource → Claims → Bool × Claims
    | [], claims => (true, claims)
    | resource :: rest, claims =>
      match claimResourceDesc dev resource claims with
      | (true, claims) => claimEach rest claims
      | (false, claims) => (false, claims)

def Resource.Covers (resource : Resource) (address : Nat) : Prop :=
  resource.start.toNat ≤ address ∧ address < resource.start.toNat + resource.size.toNat

def Conflict (a b : Resource) : Prop :=
  a.type = b.type ∧ if a.type = .irq then a.start = b.start else ∃ address, a.Covers address ∧ b.Covers address

theorem Conflict.symm {a b : Resource} (conflict : Conflict a b) : Conflict b a := by
  obtain ⟨same, shared⟩ := conflict
  refine ⟨same.symm, ?_⟩
  rw [← same]
  by_cases irq : a.type = .irq
  · rw [if_pos irq] at shared ⊢
    exact shared.symm
  · rw [if_neg irq] at shared ⊢
    obtain ⟨address, first, second⟩ := shared
    exact ⟨address, second, first⟩

-- the inclusive end does not wrap, even where the exclusive one does
theorem Resource.toNat_last (r : Resource) (nonempty : r.size ≠ 0) : r.start.toNat ≤ (r.start + r.size - 1).toNat ∧
      (r.start + r.size - 1).toNat + 1 = r.start.toNat + r.size.toNat := by
  have fits := r.fits
  have positive : r.size.toNat ≠ 0 := fun zero => nonempty (BitVec.eq_of_toNat_eq zero)
  change _ ≤ (2 ^ 64 - 1 + (r.start.toNat + r.size.toNat) % 2 ^ 64) % 2 ^ 64 ∧
    (2 ^ 64 - 1 + (r.start.toNat + r.size.toNat) % 2 ^ 64) % 2 ^ 64 + 1 = _
  omega

theorem ranges_meet_iff (a b : Resource) : (if a.size = 0 ∨ b.size = 0 then false
      else decide (a.start ≤ b.start + b.size - 1) && decide (b.start ≤ a.start + a.size - 1)) = true ↔
      ∃ address, a.Covers address ∧ b.Covers address := by
  split
  · next empty =>
      refine iff_of_false Bool.false_ne_true ?_
      rintro ⟨address, first, second⟩
      unfold Resource.Covers at first second
      rcases empty with zero | zero
      · rw [zero] at first
        simp at first
        omega
      · rw [zero] at second
        simp at second
        omega
  · next nonempty =>
      rw [not_or] at nonempty
      have last_a := a.toNat_last nonempty.1
      have last_b := b.toNat_last nonempty.2
      rw [Bool.and_eq_true, decide_eq_true_iff, decide_eq_true_iff, BitVec.le_def, BitVec.le_def]
      unfold Resource.Covers
      constructor
      · rintro ⟨before, after⟩
        exact ⟨max a.start.toNat b.start.toNat, by omega, by omega⟩
      · rintro ⟨address, first, second⟩
        omega

theorem resourceOverlaps_iff (a b : Resource) : resourceOverlaps a b = true ↔ Conflict a b := by
  unfold resourceOverlaps Conflict
  by_cases same : a.type = b.type
  · rw [if_neg (not_not.mpr same), and_iff_right same]
    by_cases irq : a.type = .irq
    · rw [if_pos irq, if_pos irq, beq_iff_eq]
    · rw [if_neg irq, if_neg irq, ranges_meet_iff]
  · rw [if_pos same]
    exact iff_of_false Bool.false_ne_true fun conflict => same conflict.1

structure Exclusive (claims : Claims) : Prop where
  apart : claims.Pairwise fun a b => ¬ Conflict a.resource b.resource
  small : claims.length ≤ maxResources

def Blocked (claims : Claims) (resource : Resource) : Prop :=
  maxResources ≤ claims.length ∨ ∃ claim ∈ claims, Conflict claim.resource resource

variable (dev : Device)

theorem claimResourceDesc_spec (resource : Resource) (claims : Claims) :
    Blocked claims resource ∧ claimResourceDesc dev resource claims = (false, claims) ∨ ¬ Blocked claims resource ∧
        claimResourceDesc dev resource claims = (true, claims ++ [⟨resource, dev.id⟩]) := by
  unfold claimResourceDesc Blocked
  by_cases full : maxResources ≤ claims.length
  · rw [if_pos full]
    exact .inl ⟨.inl full, rfl⟩
  · rw [if_neg full]
    by_cases taken : ∃ claim ∈ claims, Conflict claim.resource resource
    · have any : claims.any (fun claim => resourceOverlaps claim.resource resource) = true := by
        simpa only [any_eq_true, resourceOverlaps_iff] using taken
      rw [if_pos any]
      exact .inl ⟨.inr taken, rfl⟩
    · have none : ¬ claims.any (fun claim => resourceOverlaps claim.resource resource) = true := by
        simpa only [any_eq_true, resourceOverlaps_iff] using taken
      rw [if_neg none]
      exact .inr ⟨not_or.mpr ⟨full, taken⟩, rfl⟩

variable {claims : Claims}

theorem Exclusive.append (exclusive : Exclusive claims) {resource : Resource}
    (free : ¬ Blocked claims resource) (owner : Nat) : Exclusive (claims ++ [⟨resource, owner⟩]) := by
  obtain ⟨room, apart⟩ := not_or.mp free
  constructor
  · refine pairwise_append.mpr ⟨exclusive.apart, pairwise_singleton .., ?_⟩
    intro claim member last single
    obtain rfl := mem_singleton.mp single
    exact fun conflict => apart ⟨claim, member, conflict⟩
  · rw [length_append, length_singleton]
    omega

def Device.named (dev : Device) (type : ResourceType) (index : Int) : Option Resource :=
  if index < 0 then none else (dev.desc.resources.filter fun resource => resource.type = type)[index.toNat]?

theorem claimLoop_eq (type : ResourceType) (index : Int) (claims : Claims) (seen : Nat)
    (resources : List Resource) (ahead : seen ≤ index) :
    claimLoop dev type index claims seen resources =
      match (resources.filter fun resource => resource.type = type)[index.toNat - seen]? with
      | none => (false, claims)
      | some resource => claimResourceDesc dev resource claims := by
  induction resources generalizing seen with
  | nil => rfl
  | cons resource rest ih =>
    rw [claimLoop]
    by_cases other : resource.type = type
    · rw [if_neg (not_not.mpr other), filter_cons_of_pos (by simpa using other)]
      by_cases here : (seen : Int) = index
      · have zero : index.toNat - seen = 0 := by omega
        rw [if_pos here, zero]
        rfl
      · have next : index.toNat - seen = index.toNat - (seen + 1) + 1 := by omega
        rw [if_neg here, next, getElem?_cons_succ]
        exact ih (seen + 1) (by omega)
    · rw [if_pos other, filter_cons_of_neg (by simpa using other), ih seen ahead]

theorem flResourceClaim_eq (type : ResourceType) (index : Int) (claims : Claims) :
    flResourceClaim dev type index claims = match dev.named type index with
      | none => (false, claims)
      | some resource => claimResourceDesc dev resource claims := by
  unfold flResourceClaim Device.named
  split
  · rfl
  · next nonnegative =>
      have found := claimLoop_eq dev type index claims 0 dev.desc.resources (by omega)
      simpa using found

theorem flResourceClaim_cases (type : ResourceType) (index : Int) (claims : Claims) :
    flResourceClaim dev type index claims = (false, claims) ∧
        (∀ resource, dev.named type index = some resource → Blocked claims resource) ∨
      ∃ resource, dev.named type index = some resource ∧ ¬ Blocked claims resource ∧
        flResourceClaim dev type index claims = (true, claims ++ [⟨resource, dev.id⟩]) := by
  rw [flResourceClaim_eq]
  cases named : dev.named type index with
  | none => exact .inl ⟨rfl, fun _ found => nomatch found⟩
  | some resource =>
    rcases claimResourceDesc_spec dev resource claims with ⟨blocked, failed⟩ | ⟨free, claimed⟩
    · exact .inl ⟨failed, fun _ found => Option.some.inj found ▸ blocked⟩
    · exact .inr ⟨resource, rfl, free, claimed⟩

theorem flResourceReleaseAll_perm (claims : Claims) :
    (flResourceReleaseAll dev claims).Perm (claims.filter fun claim => claim.owner ≠ dev.id) := by
  have swept := sweep_perm (fun claim : ResourceClaim => claim.owner = dev.id) [] claims
  simpa [flResourceReleaseAll] using swept

theorem Exclusive.filter (exclusive : Exclusive claims) (p : ResourceClaim → Bool) : Exclusive (claims.filter p) :=
  ⟨exclusive.apart.filter p, (length_filter_le p claims).trans exclusive.small⟩

theorem Exclusive.perm {claims' : Claims} (exclusive : Exclusive claims) (perm : claims'.Perm claims) :
    Exclusive claims' := by
  refine ⟨(perm.pairwise_iff fun apart conflict => apart conflict.symm).mpr exclusive.apart, ?_⟩
  rw [perm.length_eq]
  exact exclusive.small

inductive ResourceCall where
  | claim (dev : Device) (type : ResourceType) (index : Int)
  | releaseAll (dev : Device)

def ResourceCall.run : ResourceCall → Claims → Claims
  | claim dev type index, claims => (flResourceClaim dev type index claims).2
  | releaseAll dev, claims => flResourceReleaseAll dev claims

def claimsAfter (calls : List ResourceCall) : Claims := calls.foldl (fun claims call => call.run claims) []

theorem Exclusive.run (exclusive : Exclusive claims) (call : ResourceCall) : Exclusive (call.run claims) := by
  cases call with
  | claim dev type index =>
    change Exclusive (flResourceClaim dev type index claims).2
    rcases flResourceClaim_cases dev type index claims with ⟨failed, -⟩ | ⟨resource, -, free, claimed⟩
    · rw [failed]
      exact exclusive
    · rw [claimed]
      exact exclusive.append free dev.id
  | releaseAll dev => exact (exclusive.filter _).perm (flResourceReleaseAll_perm dev claims)

theorem exclusive_claimsAfter (calls : List ResourceCall) : Exclusive (claimsAfter calls) := by
  suffices run : ∀ claims, Exclusive claims → Exclusive (calls.foldl (fun claims call => call.run claims) claims) by
    exact run [] ⟨.nil, Nat.zero_le _⟩
  induction calls with
  | nil => exact fun _ exclusive => exclusive
  | cons call rest ih => exact fun claims exclusive => ih _ (exclusive.run call)

theorem resources_exclusive (calls : List ResourceCall) : Exclusive (claimsAfter calls) ∧ (∀ dev type index,
        ((flResourceClaim dev type index (claimsAfter calls)).1 = false ↔
          dev.named type index = none ∨ maxResources ≤ (claimsAfter calls).length ∨
            ∃ resource, dev.named type index = some resource ∧
              ∃ claim ∈ claimsAfter calls, Conflict claim.resource resource) ∧
        ((flResourceClaim dev type index (claimsAfter calls)).1 = false →
          (flResourceClaim dev type index (claimsAfter calls)).2 = claimsAfter calls)) ∧
      ∀ dev, (flResourceReleaseAll dev (claimsAfter calls)).Perm
        ((claimsAfter calls).filter fun claim => claim.owner ≠ dev.id) := by
  refine ⟨exclusive_claimsAfter calls, fun dev type index => ?_, fun dev => flResourceReleaseAll_perm dev _⟩
  rcases flResourceClaim_cases dev type index (claimsAfter calls) with
    ⟨failed, blocked⟩ | ⟨resource, named, free, claimed⟩
  · rw [failed]
    refine ⟨iff_of_true rfl ?_, fun _ => rfl⟩
    cases named : dev.named type index with
    | none => exact .inl rfl
    | some resource => exact .inr ((blocked resource named).imp_right fun taken => ⟨resource, rfl, taken⟩)
  · rw [claimed, named]
    obtain ⟨room, apart⟩ := not_or.mp free
    refine ⟨iff_of_false nofun ?_, nofun⟩
    rintro (missing | full | ⟨_, found, taken⟩)
    · cases missing
    · exact room full
    · exact apart (Option.some.inj found ▸ taken)

end Flinstone.Drivers
