import Inlay.Message.Basic
import Inlay.Text.Basic

/-! Applying the fixes of messages to a text. Fixes are taken from the end of the text backwards, so
that the offsets of those still to come stay right. One that overlaps the fix kept before it is
dropped, and one whose range is out of bounds or splits a character is passed over. -/

namespace Inlay

structure IndexedFix where
  index : Nat
  fix : Fix

/-- The fixed text and the indices of the messages whose fix was applied, ascending. -/
structure FixResult where
  content : Text
  applied : List Nat

namespace FixResult

def count (r : FixResult) : Nat := r.applied.length

def isModified (r : FixResult) : Bool := !r.applied.isEmpty

end FixResult

namespace Fix

/-- Two ranges overlap when each ends after the other starts. -/
def overlaps (x y : Fix) : Bool := y.start < x.stop && x.start < y.stop

/-- Whether the range lies in the text and splits no character of it. -/
def isApplicable (content : Text) (f : Fix) : Bool :=
  f.start ≤ f.stop && f.stop ≤ content.length
    && content.isBoundary f.start && content.isBoundary f.stop

def applyTo (content : Text) (f : Fix) : Text :=
  content.splice f.start f.stop (Text.ofString f.text)

end Fix

namespace Fixing

def indexedFixes (ms : List Message) : List IndexedFix :=
  ms.zipIdx.filterMap fun (m, i) => m.fix.map (IndexedFix.mk i)

/-- Later starts first; fixes with one start keep their order. -/
def backwards (fixes : List IndexedFix) : List IndexedFix :=
  fixes.mergeSort fun x y => y.fix.start ≤ x.fix.start

/-- Keeps a fix unless it overlaps the one kept last. `kept` is in reverse. -/
def keep (kept : List IndexedFix) (x : IndexedFix) : List IndexedFix :=
  match kept with
  | [] => [x]
  | last :: _ => if x.fix.overlaps last.fix then kept else x :: kept

def withoutOverlaps (fixes : List IndexedFix) : List IndexedFix := (fixes.foldl keep []).reverse

/-- Applies one fix. Indices of applied fixes are collected in reverse. -/
def applyOne (r : FixResult) (x : IndexedFix) : FixResult :=
  if x.fix.isApplicable r.content then ⟨x.fix.applyTo r.content, x.index :: r.applied⟩ else r

def candidates (ms : List Message) : List IndexedFix :=
  withoutOverlaps (backwards (indexedFixes ms))

end Fixing

def applyFixes (content : Text) (ms : List Message) : FixResult :=
  let r := (Fixing.candidates ms).foldl Fixing.applyOne ⟨content, []⟩
  ⟨r.content, r.applied.mergeSort⟩

def FixResult.remaining (r : FixResult) (ms : List Message) : List Message :=
  (ms.zipIdx.filter fun (_, i) => !r.applied.contains i).map (·.1)

end Inlay
