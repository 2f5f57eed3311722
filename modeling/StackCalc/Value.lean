import StackCalc.Token

/-!
Values, and how they are written and compared. A quotation holds tokens and not values, so no value
contains itself.
-/
namespace StackCalc

inductive Value where
  | number (value : Float)
  /-- An ordered list that an array scope or a combinator built. -/
  | sequence (items : List Value)
  /-- Tokens kept for later evaluation. -/
  | quotation (body : List Token)
  /-- A name, to be bound, looked up or applied later. -/
  | reference (name : String)

namespace Value

instance : Inhabited Value := ⟨number 0⟩

/-- The name of the kind of value, for diagnostics. -/
def typeName : Value → String
  | number _ => "number"
  | sequence _ => "sequence"
  | quotation _ => "quotation"
  | reference _ => "word reference"

def number? : Value → Option Float
  | number value => some value
  | _ => none

/-- Every number but the two zeros is true; all other values are false. -/
def isTrue : Value → Bool
  | number value => value != 0
  | _ => false

mutual

/-- Sequences stand in square brackets with commas, quotations in braces with blanks, and word
references behind their quote mark. -/
def text : Value → List Char
  | number value => numberText value
  | sequence items => '[' :: itemsText items ++ [']']
  | quotation body => '{' :: body.flatMap (fun token => ' ' :: token.text) ++ [' ', '}']
  | reference name => Token.quoteMark :: name.toList

/-- The items with a comma and a blank between them. -/
def itemsText : List Value → List Char
  | [] => []
  | [item] => item.text
  | item :: next :: rest => item.text ++ ',' :: ' ' :: itemsText (next :: rest)

end

/-- The value as text. -/
def render (value : Value) : String :=
  String.ofList value.text

mutual

/-- Equality as programs see it: numbers compare by value and quotations by their tokens. -/
def same : Value → Value → Bool
  | number x, number y => x == y
  | sequence xs, sequence ys => sameList xs ys
  | quotation s, quotation t => Token.sameList s t
  | reference x, reference y => x = y
  | _, _ => false

def sameList : List Value → List Value → Bool
  | [], [] => true
  | x :: xs, y :: ys => x.same y && sameList xs ys
  | _, _ => false

end

/-! Values are the same mathematically when they agree to the last bit, positions included. -/

mutual

/-- Decides whether two values are one. -/
def decEq : (v w : Value) → Decidable (v = w)
  | number x, number y =>
    if h : x = y then .isTrue (h ▸ rfl) else .isFalse fun e => h (Value.number.inj e)
  | sequence xs, sequence ys =>
    match decEqList xs ys with
    | .isTrue h => .isTrue (h ▸ rfl)
    | .isFalse h => .isFalse fun e => h (Value.sequence.inj e)
  | quotation s, quotation t =>
    if h : s = t then .isTrue (h ▸ rfl) else .isFalse fun e => h (Value.quotation.inj e)
  | reference x, reference y =>
    if h : x = y then .isTrue (h ▸ rfl) else .isFalse fun e => h (Value.reference.inj e)
  | number _, sequence _ | number _, quotation _ | number _, reference _
  | sequence _, number _ | sequence _, quotation _ | sequence _, reference _
  | quotation _, number _ | quotation _, sequence _ | quotation _, reference _
  | reference _, number _ | reference _, sequence _ | reference _, quotation _ =>
    .isFalse nofun

/-- Decides whether two lists of values are one. -/
def decEqList : (xs ys : List Value) → Decidable (xs = ys)
  | [], [] => .isTrue rfl
  | [], _ :: _ | _ :: _, [] => .isFalse nofun
  | x :: xs, y :: ys =>
    match decEq x y, decEqList xs ys with
    | .isTrue h, .isTrue hs => .isTrue (h ▸ hs ▸ rfl)
    | .isFalse h, _ => .isFalse fun e => h (List.cons.inj e).1
    | _, .isFalse h => .isFalse fun e => h (List.cons.inj e).2

end

instance : DecidableEq Value := decEq

end Value

end StackCalc
