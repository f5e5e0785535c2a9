/-
The transactions and the balance of transparent addresses, `src/service/address.rs`.

A request for transactions makes one call after the other, and its deadline may get ahead
of any of them: they are numbered, the scan of the address index being the first.  The
node may have moved on between two calls.
-/
import Lightwalletd.Service.Address
import Lightwalletd.Service.Chain

namespace Lightwalletd

section

variable (node : AddressNode) (fired : Nat → Bool)

end

/-! ### The balance -/

def getTaddressBalance (addressBalance : List String → Except NodeError Int)
    (addresses : List String) : Except Status Int := do
  Except.ensure (addresses.length ≤ maxStreamedAddresses)
    ⟨.resourceExhausted, "get_taddress_balance: too many addresses submitted"⟩
  addresses.forM checkTaddress
  (addressBalance addresses).mapError addressQueryToStatus

/-- Take another address in, if it fits. -/
def pushBounded (addresses : List String) (address : String) : Except Status (List String) :=
  if addresses.length ≥ maxStreamedAddresses then
    .error ⟨.resourceExhausted, "get_taddress_balance_stream: too many addresses submitted"⟩
  else .ok (addresses ++ [address])

/-- The loop of `collectStreamedAddresses`, which also tells what it leaves unread. -/
def collectAddresses : List String → List (Except Status String) →
    Except Status (List String) × List (Except Status String)
  | addresses, [] => (.ok addresses, [])
  | _, .error status :: rest => (.error status, rest)
  | addresses, .ok address :: rest =>
      match checkTaddress address with
      | .error status => (.error status, rest)
      | .ok () =>
          match pushBounded addresses address with
          | .error status => (.error status, rest)
          | .ok addresses => collectAddresses addresses rest

/-- Take in the addresses a client streams, each checked as it arrives. -/
def collectStreamedAddresses (incoming : List (Except Status String)) :
    Except Status (List String) × List (Except Status String) :=
  collectAddresses [] incoming

def getTaddressBalanceStream (addressBalance : List String → Except NodeError Int)
    (incoming : List (Except Status String)) : Except Status Int := do
  let addresses ← (collectStreamedAddresses incoming).1
  (addressBalance addresses).mapError addressQueryToStatus

end Lightwalletd
