import Etcdv3Client.Common

/-!
# lease.h and lease.cc: options and requests
-/

namespace Etcdv3Client

/-- `InvalidLeaseID`: no lease. -/
def invalidLeaseID : Int := 0

abbrev LeaseGrantOptions := Options LeaseGrantRequest

def LeaseGrantOptions.withID (id : Int) (o : LeaseGrantOptions) : LeaseGrantOptions :=
  o.push fun req => { req with id := id }

namespace Client

/-- The request of `Client::LeaseGrant`. -/
def leaseGrantRequest (ttl : Int) (options : LeaseGrantOptions) : LeaseGrantRequest :=
  options.apply { ttl := ttl }

/-- The request of `Client::LeaseRevoke`. -/
def leaseRevokeRequest (id : Int) : LeaseRevokeRequest := { id := id }

end Client

end Etcdv3Client
