import Etcdv3Client.Lease

/-!
# The lease server

`LeaseGrant` and `LeaseRevoke` as the comments of rpc.proto and the status
codes of the calls have them: "ID is the requested ID for the lease. If ID
is set to 0, the lessor chooses an ID." A lease of an id that exists is not
created again. The leases that one session caused to be created are kept
apart from those of everybody else.
-/

namespace Etcdv3Client

/-- The leases that exist. -/
structure Leases where
  /-- created for the session -/
  own : List Int := []
  /-- created for others -/
  others : List Int := []
deriving DecidableEq, Repr

namespace Leases

def has (v : Leases) (id : Int) : Bool := v.own.contains id || v.others.contains id

/-- `LeaseGrant` for the session; `chosen` and `ttl` are the server's
choice. A chosen id is fresh and not 0. -/
def grant (v : Leases) (req : LeaseGrantRequest) (chosen ttl : Int) :
    Option (Except GrpcCode LeaseGrantResponse × Leases) :=
  if req.id = 0 then
    if v.has chosen || chosen == 0 then none
    else some (.ok { id := chosen, ttl := ttl }, { v with own := chosen :: v.own })
  else if v.has req.id then some (.error .failedPrecondition, v)
  else some (.ok { id := req.id, ttl := ttl }, { v with own := req.id :: v.own })

/-- A lease ends. -/
def drop (v : Leases) (id : Int) : Leases :=
  { own := v.own.filter (· != id), others := v.others.filter (· != id) }

/-- `LeaseRevoke`. -/
def revoke (v : Leases) (req : LeaseRevokeRequest) : GrpcCode × Leases :=
  if v.has req.id then (.ok, v.drop req.id) else (.notFound, v)

/-- A lease of somebody else. -/
def addOther (v : Leases) (id : Int) : Option Leases :=
  if v.has id || id == 0 then none else some { v with others := id :: v.others }

/-- What `LeaseGrant` does: it refuses an id that exists, or creates the one
asked for, or one that does not exist where none was. -/
theorem grant_cases {v v' : Leases} {req : LeaseGrantRequest} {chosen ttl : Int}
    {r : Except GrpcCode LeaseGrantResponse} (h : v.grant req chosen ttl = some (r, v')) :
    (req.id ≠ 0 ∧ r = .error .failedPrecondition ∧ v' = v) ∨
    (∃ id, id ≠ 0 ∧ id ∉ v.own ∧ (req.id ≠ 0 → id = req.id) ∧
      r = .ok { id := id, ttl := ttl } ∧ v' = { v with own := id :: v.own }) := by
  unfold grant at h
  split at h
  · rename_i h0
    split at h
    · cases h
    · rename_i hfresh
      cases h
      simp only [has, Bool.or_eq_true, List.contains_iff_mem, beq_iff_eq, not_or] at hfresh
      exact Or.inr ⟨chosen, hfresh.2, hfresh.1.1, fun hne => absurd h0 hne, rfl, rfl⟩
  · rename_i hne
    split at h
    · cases h
      exact Or.inl ⟨hne, rfl, rfl⟩
    · rename_i hfresh
      cases h
      simp only [has, Bool.or_eq_true, List.contains_iff_mem, not_or] at hfresh
      exact Or.inr ⟨req.id, hne, hfresh.1, fun _ => rfl, rfl, rfl⟩

theorem own_drop_sublist (v : Leases) (id : Int) : (v.drop id).own.Sublist v.own :=
  List.filter_sublist

theorem own_revoke_sublist (v : Leases) (req : LeaseRevokeRequest) :
    (v.revoke req).2.own.Sublist v.own := by
  unfold revoke
  split
  · exact v.own_drop_sublist _
  · exact List.Sublist.refl _

theorem own_addOther {v v' : Leases} {id : Int} (h : v.addOther id = some v') :
    v'.own = v.own := by
  unfold addOther at h
  split at h
  · cases h
  · cases h
    rfl

end Leases

end Etcdv3Client
