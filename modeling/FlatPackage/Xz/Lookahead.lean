/-
  FlatPackage.Xz.Lookahead — what is wrong with contents that go on past their declared size.

  Such a block is never accepted. Its data is at fault if any input is left when the
  declared size is reached, and the input is cut short otherwise; so it matters how
  much input has been read by then. Without branch filters only the declared octets
  are asked for. A branch filter settles an octet when the instruction is complete that
  it may belong to. If the last octets asked of it are not settled, it asks for more, up
  to two instructions' length past what is settled; and the filter inside it, if there
  is one, may have to read ahead in turn. This happens at the end of every portion.
-/

import FlatPackage.Xz.Chunks
import FlatPackage.Xz.Delivery
import FlatPackage.Xz.Filter

namespace FlatPackage.Xz.Lookahead

/-- How many octets a branch filter has been given, and how many of them it has settled. -/
structure Lead where
  given : Nat
  settled : Nat
  deriving DecidableEq, Repr

/-- The leads of the branch filters in a chain, as far as they have been asked for anything. -/
abbrev Leads := List Lead

/-- A reading so far: the requests that were made, the octets given and the input left. -/
structure Reading where
  requests : Requests
  out : ByteArray
  rest : Bytes

/-- How many of the first `n` octets that come out of the filters inside it a branch filter can
    settle. -/
def settledOf (machine : Branch.Machine) (start : UInt32) (inner : List Filter) (out : ByteArray)
    (n : Nat) : Nat :=
  (Branch.restore machine start ((Filter.undoAll inner out).extract 0 n)).settled

/-- Makes one more request, so that `n` octets are asked for in all. Contents that come to their
    end have already been too long. -/
def request (window : Nat) (s : Bytes) (n : Nat) (r : Reading) : Except Flaw Reading :=
  let requests := r.requests ++ [n - r.out.size]
  match Chunks.read window (some requests) s with
  | .ok (.full out, rest) => .ok ⟨requests, out, rest⟩
  | .ok (.ended _, rest) => .error (if rest.isEmpty then .truncated else .corrupt)
  | .error f => .error f

/-- Asks the first of some filters for `n` octets in all. -/
def ask (window : Nat) (s : Bytes) : List Filter → Leads → Nat → Reading → Except Flaw (Leads × Reading)
  | [], leads, n, r => do return (leads, ← request window s n r)
  | .delta _ :: inner, leads, n, r => ask window s inner leads n r
  | .branch machine start :: inner, leads, n, r =>
    let lead := leads.headD ⟨0, 0⟩
    if n < lead.settled then .ok (leads, r)
    else do
      let given := max lead.given n
      let (below, r) ←
        if lead.given < n ∨ lead.given = lead.settled then ask window s inner leads.tail given r
        else .ok (leads.tail, r)
      let settled := settledOf machine start inner r.out given
      if settled = given then return (⟨given, given⟩ :: below, r)
      else
        let given := settled + 2 * machine.span
        let (below, r) ← ask window s inner below given r
        return (⟨given, settledOf machine start inner r.out given⟩ :: below, r)

/-- Asks the filters of a chain for so many octets in all, one total after the other. -/
def askAll (chain : Chain) (s : Bytes) (totals : List Nat) (x : Leads × Reading) : Except Flaw (Leads × Reading) :=
  totals.foldlM (fun (leads, r) n => ask chain.window s chain.filters leads n r) x

/-- The flaw of a block in `s` whose contents do not end at `size` octets. When the input is at
    its end the block is asked for twice more, as what is read may still turn out to be at fault. -/
def flaw (chain : Chain) (d : Delivery) (size : Nat) (s : Bytes) : Flaw :=
  match askAll chain s (d.portions size) ([], ⟨[], .empty, s⟩) with
  | .error f => f
  | .ok (leads, r) =>
    if r.rest.isEmpty then
      match askAll chain s [size, size] (leads, r) with
      | .error f => f
      | .ok _ => .truncated
    else .corrupt

end FlatPackage.Xz.Lookahead
