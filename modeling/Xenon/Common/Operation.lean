import Mathlib.Data.String.Basic

/-!
# Operations

The parts of `com.vmware.xenon.common.Operation`, `Service.Action` and
`java.net.URI` that the modelled services read.
-/

namespace Xenon.Common

/-- `Service.Action`. -/
inductive Action where
  | get | post | patch | put | delete | options
deriving DecidableEq

/-- `Action.toString`, the name of the enum constant. -/
def Action.name : Action → String
  | .get => "GET"
  | .post => "POST"
  | .patch => "PATCH"
  | .put => "PUT"
  | .delete => "DELETE"
  | .options => "OPTIONS"

/-- `java.net.URI`, by the components that `UriUtils.buildServiceUri` takes. -/
structure URI where
  scheme : String
  host : String
  port : Int
  path : String
  query : Option String
deriving DecidableEq

/-- `UriUtils.buildServiceUri` (no user info is ever passed by the callers
modelled here). -/
def buildServiceUri (scheme host : String) (port : Int) (path : String)
    (query : Option String) : URI :=
  ⟨scheme, host, port, path, query⟩

def statusCodeOk : Int := 200
def statusCodeNotModified : Int := 304
def statusCodeFailureThreshold : Int := 400
def statusCodeNotFound : Int := 404
def statusCodeInternalError : Int := 500

/-- `UriUtils.buildUri(baseUri, path)`. -/
def buildUri (base : URI) (path : String) : URI :=
  buildServiceUri base.scheme base.host base.port path none

/-- `UriUtils.getLastPathSegment`. -/
def getLastPathSegment (link : String) : String :=
  String.ofList (link.toList.reverse.takeWhile (· ≠ '/')).reverse

end Xenon.Common
