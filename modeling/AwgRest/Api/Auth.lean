import AwgRest.Domain

open Domain

namespace Auth

inductive Role
  | platformAdmin
  | tenantAdmin
  | supportReadOnly
  | automationClient
  | nodeAgent
  | other (text : String)
deriving DecidableEq

structure Principal where
  subjectID : UUID := 0
  tenantID  : UUID := 0
  roles     : List Role := []
deriving DecidableEq

def Principal.hasRole (p : Principal) (r : Role) : Bool :=
  r ∈ p.roles

def Principal.hasAnyRole (p : Principal) (rs : List Role) : Bool :=
  rs.any p.hasRole

-- The caller is what the request context carries, if it carries a principal at all.
def authorizeTenant (caller : Option Principal) (tenantID : UUID) (roles : List Role) :
    Except Err Unit :=
  match caller with
  | none => throw (.sentinel .unauthorized)
  | some p =>
    if !p.hasAnyRole roles then throw (.sentinel .forbidden)
    else if p.hasRole .platformAdmin then pure ()
    else if p.tenantID = 0 ∨ p.tenantID ≠ tenantID then throw (.sentinel .forbidden)
    else pure ()

end Auth
