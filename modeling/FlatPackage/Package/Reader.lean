/-
  FlatPackage.Package.Reader — opening a package and going through its entries.

  The outer container is searched for its payload, the payload is decoded as a whole,
  and only then is the inner container opened. From then on entries and their bodies
  come from the inner container alone.
-/

import FlatPackage.Container.Archive
import FlatPackage.Package.Entry
import FlatPackage.Stream.Decode

namespace FlatPackage.Package.Reader

open Container (Archive Header Session)

/-! ## The payload -/

/-- The body of the first entry with the payload's name, read from the outer container's present
    place on. -/
def findPayload {σ : Type} (A : Archive σ) (s : σ) : Except Fault Bytes × σ :=
  match _ : A.answer (.next .xar) s with
  | (.ok (some h), t) => if isPayloadName h.path then A.answer (.readAll .xar) t else findPayload A t
  | (.ok none, t) => (.error .noPayload, t)
  | (.error f, t) => (.error f, t)
termination_by A.left .xar s
decreasing_by exact A.left_next (by assumption)

/-- The payload of the package at a path, as it is stored. -/
def extractPayload {σ : Type} (A : Archive σ) (path : String) : Session σ Bytes := do
  A.call (.openFile .xar path)
  findPayload A

/-! ## Opening -/

def openArchive {σ : Type} (A : Archive σ) (archive : Bytes) : Session σ Unit :=
  A.call (.openMemory .cpio archive)

/-- Opens from a payload that is at hand. -/
def openPayload {σ : Type} (A : Archive σ) (codec : Stream.Codec) (payload : Bytes) : Session σ Unit := do
  let archive ← (Stream.decode codec payload : Except Fault Bytes)
  openArchive A archive

def openFile {σ : Type} (A : Archive σ) (codec : Stream.Codec) (path : String) : Session σ Unit := do
  let payload ← extractPayload A path
  openPayload A codec payload

/-- Opens from the package's bytes. -/
def openMemory {σ : Type} (A : Archive σ) (codec : Stream.Codec) (package : Bytes) : Session σ Unit := do
  A.call (.openMemory .xar package)
  let payload ← findPayload A
  openPayload A codec payload

/-! ## Entries -/

def next {σ : Type} (A : Archive σ) : Session σ (Option Header) := A.call (.next .cpio)

def read {σ : Type} (A : Archive σ) (n : Nat) : Session σ Bytes := A.call (.read .cpio n)

def readAll {σ : Type} (A : Archive σ) : Session σ Bytes := A.call (.readAll .cpio)

def skip {σ : Type} (A : Archive σ) : Session σ Unit := A.call (.skip .cpio)

end FlatPackage.Package.Reader
