import SaltOS.Base.Bytes

/-!
# The natural version order

`salt_vercmp` of `src/halite/src/repo.c`: runs of digits compare as numbers,
other bytes one by one, a digit is above any other byte and the end of the
text below everything.
-/

namespace SaltOS.Repo

open Bytes

/-- Two digit runs without leading zeros, as numbers. -/
def digitRunCmp (left right : Bytes) : Int :=
  if left.length ≠ right.length then
    if left.length < right.length then -1 else 1
  else strcmp left right

/-- The loop of `salt_vercmp`; every round consumes a byte of both texts. -/
def vercmpLoop : Nat → Bytes → Bytes → Int
  | 0, _, _ => 0
  | _ + 1, [], [] => 0
  | _ + 1, _ :: _, [] => 1
  | _ + 1, [], _ :: _ => -1
  | fuel + 1, x :: xs, y :: ys =>
      if isDigit x && isDigit y then
        let left := (x :: xs).dropWhile (· == 48)
        let right := (y :: ys).dropWhile (· == 48)
        let order := digitRunCmp (left.takeWhile isDigit)
          (right.takeWhile isDigit)
        if order ≠ 0 then order
        else vercmpLoop fuel (left.dropWhile isDigit)
          (right.dropWhile isDigit)
      else if isDigit x then 1
      else if isDigit y then -1
      else if x ≠ y then
        if x < y then -1 else 1
      else vercmpLoop fuel xs ys

def vercmp (left right : Bytes) : Int :=
  vercmpLoop (left.length + right.length + 1) left right

end SaltOS.Repo
