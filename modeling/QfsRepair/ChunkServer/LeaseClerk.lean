import QfsRepair.Machine.GuardedRuns
import Mathlib.Data.Int.Notation

/-!
# Write leases of a chunk server

The class `LeaseClerk`: the leases of the chunks that are written, the renewals
that its timer sends to the meta server, and their replies, which may arrive at
any later time and in any order.  The lease table is a function of the chunk,
and the calls carry the time.
-/

namespace QfsRepair.ChunkServer

open Function

def LEASE_INTERVAL_SECS : ℤ := 300

structure LeaseInfo (Access : Type) where
  leaseId : ℤ
  expires : ℤ
  lastWriteTime : ℤ
  leaseRenewSent : Bool
  appendFlag : Bool
  invalidFlag : Bool
  allowCSClearTextFlag : Bool
  syncReplicationExpirationTime : ℤ
  chunkServerAccess : Option Access
  chunkAccess : Option Access

/-- The access that an allocation or the reply to a renewal grants. -/
structure GrantedAccess (Access : Type) where
  allowCSClearTextFlag : Bool
  chunkServerAccessValidForTime : ℤ
  chunkServerAccessIssuedTime : ℤ
  chunkServerAccess : Option Access
  chunkAccess : Option Access

structure LeaseRenewOp where
  chunkId : ℤ
  leaseId : ℤ
  emitCSAccessFlag : Bool
  deriving DecidableEq

/-- The clerk, with the renewals that have no reply yet. -/
structure LeaseClerk (Access : Type) where
  leases : ℤ → Option (LeaseInfo Access)
  lastLeaseCheckTime : ℤ
  inFlight : List LeaseRenewOp

/-- Calls of the clerk.  The timer is given the chunks in the order of the lease
table, and which of them still have work to do. -/
inductive LeaseCall (Access : Type) where
  | registerLease (now chunkId leaseId : ℤ) (appendFlag : Bool) (granted : GrantedAccess Access)
  | unRegisterLease (chunkId : ℤ)
  | invalidateLease (now chunkId : ℤ)
  | unregisterAllLeases
  | doingWrite (now chunkId : ℤ)
  | relinquishLease (chunkId : ℤ)
  | timeout (now : ℤ) (chunkIds : List ℤ) (wantsToKeepLease isWritePending : ℤ → Bool)
  | handleEvent (now : ℤ) (op : LeaseRenewOp) (status : ℤ) (granted : GrantedAccess Access)

namespace LeaseClerk

variable {Access : Type} (tokenEnd : Access → Option ℤ) (clerk : LeaseClerk Access)

/-- `syncReplicationExpirationTime` of an access; without the time of validity
the end of the token tells it, if the token can be read. -/
def accessExpiration (now : ℤ) (granted : GrantedAccess Access) : ℤ :=
  -LEASE_INTERVAL_SECS +
    if 0 < granted.chunkServerAccessValidForTime then
      granted.chunkServerAccessIssuedTime + granted.chunkServerAccessValidForTime
    else granted.chunkServerAccess.elim 0 fun access => (tokenEnd access).getD now

def registerLease (now chunkId leaseId : ℤ) (appendFlag : Bool)
    (granted : GrantedAccess Access) : LeaseClerk Access :=
  let lease : LeaseInfo Access :=
    { leaseId
      expires := now + LEASE_INTERVAL_SECS
      lastWriteTime := now
      leaseRenewSent := false
      appendFlag
      invalidFlag := false
      allowCSClearTextFlag := granted.allowCSClearTextFlag
      syncReplicationExpirationTime := accessExpiration tokenEnd now granted
      chunkServerAccess := granted.chunkServerAccess
      chunkAccess := granted.chunkAccess }
  { clerk with leases := update clerk.leases chunkId (some lease) }

/-- A change of the lease that a chunk has. -/
def modifyLease (chunkId : ℤ) (change : LeaseInfo Access → Option (LeaseInfo Access)) :
    LeaseClerk Access :=
  { clerk with leases := update clerk.leases chunkId ((clerk.leases chunkId).bind change) }

def unRegisterLease (chunkId : ℤ) : LeaseClerk Access :=
  clerk.modifyLease chunkId fun _ => none

def invalidateLease (now chunkId : ℤ) : LeaseClerk Access :=
  clerk.modifyLease chunkId fun lease =>
    if lease.invalidFlag || lease.appendFlag || lease.expires < now then some lease
    else some { lease with lastWriteTime := now, invalidFlag := true }

def doingWrite (now chunkId : ℤ) : LeaseClerk Access :=
  clerk.modifyLease chunkId fun lease => some { lease with lastWriteTime := now }

def leaseRenewed (now chunkId : ℤ) (granted : GrantedAccess Access) : LeaseClerk Access :=
  clerk.modifyLease chunkId fun lease => some { lease with
    expires := now + LEASE_INTERVAL_SECS
    leaseRenewSent := false
    syncReplicationExpirationTime := if granted.chunkServerAccess.isSome
      then accessExpiration tokenEnd now granted else lease.syncReplicationExpirationTime
    allowCSClearTextFlag := granted.allowCSClearTextFlag
    chunkServerAccess := granted.chunkServerAccess.or lease.chunkServerAccess
    chunkAccess := granted.chunkAccess.or lease.chunkAccess }

/-- `HandleEvent` for the reply to a renewal. -/
def handleEvent (now : ℤ) (op : LeaseRenewOp) (status : ℤ) (granted : GrantedAccess Access) :
    LeaseClerk Access :=
  if status = 0 then clerk.leaseRenewed tokenEnd now op.chunkId granted
  else clerk.unRegisterLease op.chunkId

/-- One round of the loop of `Timeout`; a dead lease is queued to be erased. -/
def visitLease (now : ℤ) (wantsToKeepLease isWritePending : ℤ → Bool)
    (visited : LeaseClerk Access × List ℤ) (chunkId : ℤ) : LeaseClerk Access × List ℤ :=
  match visited.1.leases chunkId with
  | none => visited
  | some lease =>
    if lease.expires + LEASE_INTERVAL_SECS < now then (visited.1, visited.2 ++ [chunkId])
    else if lease.leaseRenewSent || now + LEASE_INTERVAL_SECS - 60 < lease.expires then visited
    else if lease.lastWriteTime + LEASE_INTERVAL_SECS < now &&
        !(if lease.appendFlag then wantsToKeepLease chunkId else isWritePending chunkId) then
      visited
    else
      ({ visited.1.modifyLease chunkId fun lease =>
          some { lease with leaseRenewSent := true } with
        inFlight := visited.1.inFlight ++ [⟨chunkId, lease.leaseId,
          lease.chunkServerAccess.isSome && lease.syncReplicationExpirationTime ≤ now⟩] },
        visited.2)

def timeout (now : ℤ) (chunkIds : List ℤ) (wantsToKeepLease isWritePending : ℤ → Bool) :
    LeaseClerk Access :=
  if now ≤ clerk.lastLeaseCheckTime + 1 then clerk
  else
    let visited := chunkIds.foldl (visitLease now wantsToKeepLease isWritePending)
      ({ clerk with lastLeaseCheckTime := now }, [])
    visited.2.foldl unRegisterLease visited.1

/-- One call; a reply is for a renewal in flight. -/
def call (clerk : LeaseClerk Access) : LeaseCall Access → LeaseClerk Access
  | .registerLease now chunkId leaseId appendFlag granted =>
    clerk.registerLease tokenEnd now chunkId leaseId appendFlag granted
  | .unRegisterLease chunkId => clerk.unRegisterLease chunkId
  | .invalidateLease now chunkId => clerk.invalidateLease now chunkId
  | .unregisterAllLeases => { clerk with leases := fun _ => none }
  | .doingWrite now chunkId => clerk.doingWrite now chunkId
  | .relinquishLease chunkId => clerk.unRegisterLease chunkId
  | .timeout now chunkIds wantsToKeepLease isWritePending =>
    clerk.timeout now chunkIds wantsToKeepLease isWritePending
  | .handleEvent now op status granted =>
    if op ∈ clerk.inFlight then
      { clerk.handleEvent tokenEnd now op status granted with
        inFlight := clerk.inFlight.erase op }
    else clerk

/-- No reply that may still arrive changes a lease other than the one it was
sent for. -/
def RepliesMatch : Prop :=
  ∀ op ∈ clerk.inFlight, ∀ now status granted chunkId,
    (clerk.handleEvent tokenEnd now op status granted).leases chunkId ≠ clerk.leases chunkId →
      ∃ lease, clerk.leases chunkId = some lease ∧ lease.leaseId = op.leaseId

/-- A chunk is not registered under another lease while the renewal of an earlier
one is in flight. -/
def Settled : LeaseCall Access → Prop
  | .registerLease _ chunkId leaseId _ _ =>
    ∀ op ∈ clerk.inFlight, op.chunkId = chunkId → op.leaseId = leaseId
  | _ => True

/-! ## Renewals in flight -/

/-- A renewal in flight names the lease of its chunk. -/
def Current : Prop :=
  ∀ op ∈ clerk.inFlight, ∀ lease, clerk.leases op.chunkId = some lease →
    lease.leaseId = op.leaseId

variable {clerk} {tokenEnd}

namespace Current

variable (hcurrent : clerk.Current)

include hcurrent

theorem modifyLease {chunkId : ℤ} {change : LeaseInfo Access → Option (LeaseInfo Access)}
    (hchange : ∀ lease, ∀ changed ∈ change lease, changed.leaseId = lease.leaseId) :
    (clerk.modifyLease chunkId change).Current := by
  intro op hop lease hlease
  simp only [LeaseClerk.modifyLease, update_apply] at hlease
  split_ifs at hlease with hchunk
  · obtain ⟨before, hbefore, hafter⟩ := Option.bind_eq_some_iff.mp hlease
    rw [hchange before lease hafter]
    exact hcurrent op hop before (hchunk ▸ hbefore)
  · exact hcurrent op hop lease hlease

theorem unRegisterLease (chunkId : ℤ) :
    (clerk.unRegisterLease chunkId).Current :=
  hcurrent.modifyLease (by simp)

theorem handleEvent (now : ℤ) (op : LeaseRenewOp) (status : ℤ) (granted : GrantedAccess Access) :
    (clerk.handleEvent tokenEnd now op status granted).Current := by
  rw [LeaseClerk.handleEvent]
  split_ifs
  · exact hcurrent.modifyLease (by simp)
  · exact hcurrent.unRegisterLease op.chunkId

omit hcurrent in
/-- The timer sends a renewal for the lease that the chunk has. -/
theorem visitLease {visited : LeaseClerk Access × List ℤ} (hcurrent : visited.1.Current)
    (now : ℤ) (wantsToKeepLease isWritePending : ℤ → Bool) (chunkId : ℤ) :
    (visitLease now wantsToKeepLease isWritePending visited chunkId).1.Current := by
  rw [LeaseClerk.visitLease]
  cases hlease : visited.1.leases chunkId with
  | none => exact hcurrent
  | some lease =>
    rw [apply_ite Prod.fst, apply_ite Prod.fst, apply_ite Prod.fst]
    refine iteInduction (fun _ => hcurrent) fun _ => iteInduction (fun _ => hcurrent)
      fun _ => iteInduction (fun _ => hcurrent) fun _ => ?_
    · have hsent : (visited.1.modifyLease chunkId fun lease =>
          some { lease with leaseRenewSent := true }).Current := hcurrent.modifyLease (by simp)
      intro op hop changed hchanged
      rcases List.mem_append.mp hop with hold | hnew
      · exact hsent op hold changed hchanged
      · obtain rfl := List.mem_singleton.mp hnew
        simp only [LeaseClerk.modifyLease, update_self, hlease, Option.bind_some,
          Option.some.injEq] at hchanged
        rw [← hchanged]

theorem timeout (now : ℤ) (chunkIds : List ℤ) (wantsToKeepLease isWritePending : ℤ → Bool) :
    (clerk.timeout now chunkIds wantsToKeepLease isWritePending).Current := by
  rw [LeaseClerk.timeout]
  split_ifs
  · exact hcurrent
  · have hvisited := List.foldlRecOn
      (motive := fun visited : LeaseClerk Access × List ℤ => visited.1.Current) chunkIds
      (LeaseClerk.visitLease now wantsToKeepLease isWritePending)
      (b := ({ clerk with lastLeaseCheckTime := now }, [])) hcurrent
      fun visited hvisited chunkId _ => hvisited.visitLease now _ _ chunkId
    exact List.foldlRecOn (motive := Current) _ _ hvisited
      fun clerk hclerk chunkId _ => hclerk.unRegisterLease chunkId

theorem call {call : LeaseCall Access} (hsettled : clerk.Settled call) :
    (clerk.call tokenEnd call).Current := by
  cases call with
  | registerLease now chunkId leaseId appendFlag granted =>
    intro op hop lease hlease
    simp only [LeaseClerk.call, LeaseClerk.registerLease, update_apply] at hlease
    split_ifs at hlease with hchunk
    · rw [hsettled op hop hchunk, ← Option.some.inj hlease]
    · exact hcurrent op hop lease hlease
  | unRegisterLease chunkId => exact hcurrent.unRegisterLease chunkId
  | invalidateLease now chunkId =>
    refine hcurrent.modifyLease fun lease changed hchanged => ?_
    split_ifs at hchanged <;> rw [← Option.some.inj hchanged]
  | unregisterAllLeases => exact nofun
  | doingWrite now chunkId => exact hcurrent.modifyLease (by simp)
  | relinquishLease chunkId => exact hcurrent.unRegisterLease chunkId
  | timeout now chunkIds wantsToKeepLease isWritePending =>
    exact hcurrent.timeout now chunkIds wantsToKeepLease isWritePending
  | handleEvent now op status granted =>
    rw [LeaseClerk.call]
    split_ifs
    · exact fun other hother => hcurrent.handleEvent now op status granted other
        (by rw [LeaseClerk.handleEvent]; split_ifs <;> exact List.mem_of_mem_erase hother)
    · exact hcurrent

end Current

/-- A reply with an error takes away whatever lease its chunk has. -/
theorem repliesMatch_iff : clerk.RepliesMatch tokenEnd ↔ clerk.Current := by
  constructor
  · intro hmatch op hop lease hlease
    obtain ⟨other, hother, hid⟩ := hmatch op hop 0 1 ⟨false, 0, 0, none, none⟩ op.chunkId (by
      simp [handleEvent, unRegisterLease, modifyLease, hlease])
    rw [hlease] at hother
    rw [Option.some.inj hother, hid]
  · intro hcurrent op hop now status granted chunkId hchanged
    have hmodified : ∃ change, clerk.handleEvent tokenEnd now op status granted =
        clerk.modifyLease op.chunkId change := by
      rw [handleEvent]
      split_ifs <;> exact ⟨_, rfl⟩
    obtain ⟨change, hmodified⟩ := hmodified
    rw [hmodified] at hchanged
    simp only [modifyLease, update_apply] at hchanged
    split_ifs at hchanged with hchunk
    · subst hchunk
      cases hlease : clerk.leases op.chunkId with
      | none => simp [hlease] at hchanged
      | some lease => exact ⟨lease, rfl, hcurrent op hop lease hlease⟩
    · exact absurd rfl hchanged

variable (tokenEnd)

theorem guarded_call : Machine.Guarded (call tokenEnd) (fun _ _ => ())
    (fun clerk (_ : Unit) => clerk.RepliesMatch tokenEnd) Settled
    (fun clerk _ _ => clerk.Current) where
  behaves _ _ _ hcurrent := repliesMatch_iff.mpr hcurrent
  keeps _ _ _ _ hcurrent hsettled := hcurrent.call hsettled
  needed clerk _ call _ _ hmatch := by
    cases call with
    | registerLease now chunkId leaseId appendFlag granted =>
      intro op hop hchunk
      have hlease := repliesMatch_iff.mp hmatch op hop
      simp only [LeaseClerk.call, registerLease, hchunk, update_self] at hlease
      exact (hlease _ rfl).symm
    | _ => trivial

/-- In every run from a clerk without leases, replies only ever match the leases
they were sent for if and only if no chunk is registered again under another lease
while a renewal is in flight. -/
theorem repliesMatch_run_iff (lastLeaseCheckTime : ℤ) (calls : List (LeaseCall Access)) :
    (∀ front, front <+: calls →
      (front.foldl (call tokenEnd) ⟨fun _ => none, lastLeaseCheckTime, []⟩).RepliesMatch
        tokenEnd) ↔
      ∀ front next, front ++ [next] <+: calls →
        (front.foldl (call tokenEnd) ⟨fun _ => none, lastLeaseCheckTime, []⟩).Settled next :=
  @Machine.Guarded.behaves_iff _ _ _ calls _ _ _ _ _ _ (guarded_call tokenEnd) () nofun

/-- Lease 1 of chunk 7 is renewed, the chunk is allocated again with lease 2, and
the reply to the renewal drops or extends the new lease. -/
theorem stale_reply_not_ignored :
    let granted : GrantedAccess Unit := ⟨false, 0, 0, none, none⟩
    let op : LeaseRenewOp := ⟨7, 1, false⟩
    let clerk := List.foldl (call fun _ => none) (⟨fun _ => none, -600, []⟩ : LeaseClerk Unit)
      [.registerLease 0 7 1 false granted, .timeout 250 [7] (fun _ => false) (fun _ => false),
        .registerLease 260 7 2 false granted]
    op ∈ clerk.inFlight ∧ (clerk.leases 7).map LeaseInfo.leaseId = some 2 ∧
      (clerk.leases 7).map LeaseInfo.expires = some 560 ∧
      ((clerk.handleEvent (fun _ => none) 270 op (-1) granted).leases 7).isNone ∧
      ((clerk.handleEvent (fun _ => none) 270 op 0 granted).leases 7).map LeaseInfo.expires =
        some 570 ∧
      ¬ clerk.RepliesMatch fun _ => none := by
  refine ⟨by decide, by decide, by decide, by decide, by decide, fun hmatch => ?_⟩
  have hsame := repliesMatch_iff.mp hmatch ⟨7, 1, false⟩ (by decide) _ rfl
  exact absurd hsame (by decide)

end LeaseClerk

end QfsRepair.ChunkServer
