import Boardwright.Workshop

/-!
# The package registry

The registry says where the repository of a package is. A package that it does not know
is answered by a status of its own.
-/

namespace Boardwright

namespace Registry

/-- The status of the answer for a package that is not known. -/
def unknown : Nat := 500

/-- The value of a key of a map. A map without the key and what is no map are told
apart. -/
def member (key : String) : Document → Except Fault Document
  | .map entries =>
    match entries.lookup (.text key) with
    | some d => .ok d
    | none => .error .missingKey
  | _ => .error .wrongType

/-- The repository of a package, read off the answer of the registry. -/
def repositoryOf (name : String) (status : Nat) (body : Document) : Except Failure Document :=
  if status = unknown then
    .error (.general ("Could not find package '" ++ name ++ "' in registry."))
  else if 400 ≤ status && status < 600 then .error (.fault .http)
  else match (do member "repo_url" (← member "data" body) : Except Fault Document) with
    | .ok url => .ok url
    | .error .missingKey => .error (.general ("No repo_url found for package '" ++ name ++ "'"))
    | .error f => .error (.fault f)

end Registry

namespace Workshop

/-- The registry is asked for the repository of a package. -/
def lookUp (name : String) : Work Workshop Document := do
  call (.registry name)
  let (status, body) := ((← get).registry.get? name).getD (Registry.unknown, .null)
  Work.ofExcept (Registry.repositoryOf name status body)

end Workshop

end Boardwright
