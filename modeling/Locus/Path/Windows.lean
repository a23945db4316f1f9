import Locus.Path.Components

/-!
Windows paths. A path may open with a drive: a character and a colon, or two separators with a server
and a share, where the long form `\\?\UNC\` counts as the two separators. What follows the drive is
rooted if it opens with a separator. Both slashes separate; the normal form has backslashes only.
-/

namespace Locus.Path.Windows

/-- Either of the two separators. -/
def isSep (c : CodePoint) : Bool := c.is '\\' || c.is '/'

/-- Backslashes for slashes. -/
def backslashed (p : Text) : Text := p.map fun (c : CodePoint) => if c = '/' then '\\' else c

/-- Small letters for ASCII capitals. -/
def lowered (t : Text) : Text := t.map CodePoint.toLower

/-- The number of code points before the server's name, if the path opens with two separators. -/
def leadLength? (p : Text) : Option Nat :=
  if lowered (backslashed (p.take 8)) = "\\\\?\\unc\\" then some 8
  else if backslashed (p.take 2) = "\\\\" then some 2
  else none

/-- How many code points of a server and a share come first: all, unless the share ends at a separator. -/
def shareLength (t : Text) : Nat :=
  let server := t.takeWhile (!isSep ·)
  match t.dropWhile (!isSep ·) with
  | [] => server.length
  | _ :: r => server.length + 1 + (r.takeWhile (!isSep ·)).length

/-- How many code points of the path are its drive. -/
def driveLength (p : Text) : Nat :=
  match leadLength? p with
  | some n => n + shareLength (p.drop n)
  | none => if p[1]?.any (CodePoint.is ':') then 2 else 0

/-- The drive of the path, and what follows it. -/
def cutDrive (p : Text) : Text × Text := p.splitAt (driveLength p)

/-- Opens with a separator. -/
def isRooted (rest : Text) : Bool := rest.head?.any isSep

/-- The normal form of a path that is not empty. -/
def normal (p : Text) : Text :=
  let (drive, rest) := cutDrive (backslashed p)
  let root : Text := if isRooted rest then "\\" else []
  let cs := resolve (isRooted rest) (components isSep rest)
  match drive ++ root ++ List.intercalate "\\" cs with
  | [] => here
  | n => n

end Locus.Path.Windows
