import AwgRest.Domain

open Domain

namespace Api

-- The sentinels that the API asks for. Those of the last four that are asked for and never returned
-- by the modelled functions are here for their place in the order.
inductive Known
  | sentinel (s : Sentinel)
  | conflict
  | rateLimited
  | invalidProfile
  | unsupportedProtocol
deriving DecidableEq

-- An error as `errors.Is` and `errors.As` see it.
structure Failure where
  is     : List Known
  text   : String
  fields : List ValidationError := []
deriving DecidableEq

def Failure.of (e : Err) : Failure where
  is     := e.is.map .sentinel
  text   := e.text
  fields := e.fields

def errRateLimited : Failure where
  is   := [.rateLimited]
  text := "rate_limited"

structure Problem where
  type   : String := "about:blank"
  title  : String
  status : Int
  detail : String
  code   : String
  errors : List ValidationError := []
deriving DecidableEq

namespace Problem

-- Title and code are the same in every problem.
def coded (code : String) (status : Int) (detail : String) : Problem where
  title  := code
  status := status
  detail := detail
  code   := code

def fromError (e : Failure) : Problem :=
  if .sentinel .notFound ∈ e.is then coded "not_found" 404 e.text
  else if .sentinel .unauthorized ∈ e.is then coded "unauthorized" 401 e.text
  else if .sentinel .forbidden ∈ e.is then coded "forbidden" 403 e.text
  else if .sentinel .idempotencyConflict ∈ e.is then coded "idempotency_conflict" 409 e.text
  else if .conflict ∈ e.is ∨ .sentinel .peerExists ∈ e.is then coded "conflict" 409 e.text
  else if .sentinel .ipPoolExhausted ∈ e.is then coded "ip_pool_exhausted" 409 e.text
  else if .rateLimited ∈ e.is then coded "rate_limited" 429 e.text
  else if .sentinel .invalidKey ∈ e.is ∨ .invalidProfile ∈ e.is ∨ .unsupportedProtocol ∈ e.is then
    coded "invalid_request" 400 e.text
  else if e.fields ≠ [] then
    { coded "validation_failed" 422 (Err.validation e.fields).text with errors := e.fields }
  else coded "internal_error" 500 e.text

end Problem
end Api
