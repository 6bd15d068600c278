import MacroAssembler.Conditional.Expr
import MacroAssembler.Text.Numeral

/-!
# Evaluation of conditional assembly expressions

The value of an expression, given the values of variable symbols. Numbers are words of 32 bits;
shifts count up to 63 places. Texts are compared by their length in bytes first, so that a shorter
text comes before a longer one whatever they hold.
-/

namespace MacroAssembler.Conditional

/-- Why an expression has no value. -/
inductive EvalError where
  | typeMismatch (op : Operator)
  | overflow (op : Operator)
  | shiftOutOfRange (count : Int32)
  | undefinedVariable (name : NameId)
  | undefinedCreatedVariable
  | argumentCount (f : Function) (count : Nat)
  | invalidArgument (f : Function)
  | notEvaluable (f : Function)
  deriving DecidableEq

/-- The failure in words. -/
def EvalError.message (names : NameTable) : EvalError → Except UnknownName String
  | typeMismatch op => .ok ("Operands of " ++ op.text ++ " have the wrong type")
  | overflow op => .ok ("Result of " ++ op.text ++ " overflows")
  | shiftOutOfRange count => .ok ("Shift count " ++ Numeral.decimal count ++ " out of range")
  | undefinedVariable name => do
      let text ← names.get name
      return "Undefined variable symbol &" ++ text
  | undefinedCreatedVariable => .ok "Created variable symbol is not defined"
  | argumentCount f count =>
      .ok (f.name ++ " expects " ++ toString f.arity ++ " arguments but got " ++ toString count)
  | invalidArgument f => .ok ("Invalid argument to " ++ f.name)
  | notEvaluable f => .ok (f.name ++ " cannot be evaluated without assembler state")

/-! ## Shifts -/

/-- The number of places to shift by. -/
def shiftCount (count : Int32) : Except EvalError Nat :=
  if 0 ≤ count ∧ count ≤ 63 then .ok count.toInt.toNat else .error (.shiftOutOfRange count)

/-- Shift a number to the left in a double word; it must come back when shifted to the right, and
must fit a word. -/
def shiftLeftArithmetic (value : Int32) (count : Nat) : Except EvalError Int32 :=
  let places := Int64.ofNat count
  let shifted := value.toInt64 <<< places
  if shifted >>> places = value.toInt64 ∧ shifted.toInt32.toInt64 = shifted then
    .ok shifted.toInt32
  else .error (.overflow .sla)

/-- Shift the bits of a word to the left; from 32 places on none is left. -/
def shiftLeftLogical (value : Int32) (count : Nat) : Int32 :=
  if count < 32 then (value.toUInt32 <<< UInt32.ofNat count).toInt32 else 0

/-- Shift the bits of a word to the right; from 32 places on none is left. -/
def shiftRightLogical (value : Int32) (count : Nat) : Int32 :=
  if count < 32 then (value.toUInt32 >>> UInt32.ofNat count).toInt32 else 0

/-- Shift a number to the right; beyond 31 places only the sign is left. -/
def shiftRightArithmetic (value : Int32) (count : Nat) : Int32 :=
  value >>> Int32.ofNat (min count 31)

/-! ## Texts -/

/-- The order of texts: the shorter first, in bytes, then character by character. -/
def compareTexts (l r : String) : Ordering :=
  (compare (Text.byteLength l.toList) (Text.byteLength r.toList)).then (compare l r)

/-- The order of two values of one kind; truth values have none. -/
def compareValues : Value → Value → Option Ordering
  | .arithmetic l, .arithmetic r => some (compare l.toInt r.toInt)
  | .character l, .character r => some (compareTexts l r)
  | _, _ => none

/-- The place, from 1, of the first character that is in the set; 0 if there is none. -/
def findAny (s set : List Char) : Int32 :=
  match s.findIdx? set.contains with
  | some n => Int32.ofNat (n + 1)
  | none => 0

/-- The number of characters before the first occurrence of a text. -/
def occurrence? (needle : List Char) : List Char → Option Nat
  | [] => if needle.isEmpty then some 0 else none
  | c :: rest =>
      if needle.isPrefixOf (c :: rest) then some 0 else (occurrence? needle rest).map (· + 1)

/-- The place, from 1, of the first occurrence of a text that is not empty; 0 if there is none. -/
def findText (s needle : List Char) : Int32 :=
  if needle.isEmpty then 0
  else match occurrence? needle s with
    | some n => Int32.ofNat (n + 1)
    | none => 0

/-- The text with every apostrophe and every ampersand written twice. -/
def doubled (cs : List Char) : List Char :=
  cs.flatMap fun c => if c == '\'' || c == '&' then [c, c] else [c]

/-- The text with every two neighbouring characters `c` written as one. -/
def collapse (c : Char) : List Char → List Char
  | a :: b :: rest =>
      if a == c && b == c then c :: collapse c rest else a :: collapse c (b :: rest)
  | cs => cs

/-- The number of characters of a text in which apostrophes and ampersands are written twice. -/
def undoubledLength (cs : List Char) : Nat := (collapse '&' (collapse '\'' cs)).length

/-- The text without an apostrophe at its start and one at its end. -/
def dequoted (cs : List Char) : List Char :=
  let opened := match cs with
    | '\'' :: rest => rest
    | _ => cs
  match opened.getLast? with
  | some '\'' => opened.dropLast
  | _ => opened

/-- The character with a number below 256, as a text. -/
def byteText? (i : Int32) : Option String :=
  if 0 ≤ i ∧ i ≤ 255 then some (String.singleton (Char.ofNat i.toInt.toNat)) else none

/-! ## Numerals in texts -/

/-- The pattern of bits a text denotes; no digits at all denote zero. -/
def bits? (base : Nat) (s : String) : Option Int32 :=
  if s.isEmpty then some 0 else Numeral.pattern? base s.toList

/-- The number a text denotes in decimal, blanks around it allowed. -/
def number? (s : String) : Option Int32 := Numeral.integer? (Text.trim s.toList)

/-- The text is a row of digits of the base, no longer than the limit. -/
def isNumeral (base limit : Nat) (s : String) : Bool :=
  !s.isEmpty && Text.byteLength s.toList ≤ limit && s.toList.all (Numeral.isDigitOf base)

/-- The text is a row of at most ten decimal digits, and its value a positive word. -/
def isDecimal (s : String) : Bool :=
  isNumeral 10 10 s && Numeral.valueOf 10 s.toList < 0x80000000

/-! ## Values -/

/-- The value of a unary operator. -/
def applyUnary (op : Operator) (v : Value) : Except EvalError Value :=
  match op, v with
  | .not, .arithmetic i => .ok (.arithmetic (~~~i))
  | .not, .boolean b => .ok (.boolean (!b))
  | .byte, .arithmetic i =>
      match byteText? i with
      | some s => .ok (.character s)
      | none => .error (.overflow .byte)
  | .double, .character s => .ok (.character (String.ofList (doubled s.toList)))
  | .lower, .character s => .ok (.character (Text.lower s))
  | .upper, .character s => .ok (.character (Text.upper s))
  | .signed, .arithmetic i => .ok (.character (Numeral.decimal i))
  | _, _ => .error (.typeMismatch op)

/-- What a comparison says about the order of its operands; no other operator is one. -/
def comparison? : Operator → Option (Ordering → Bool)
  | .eq => some Ordering.isEq
  | .ne => some Ordering.isNe
  | .le => some Ordering.isLE
  | .lt => some Ordering.isLT
  | .ge => some Ordering.isGE
  | .gt => some Ordering.isGT
  | _ => none

/-- The value of a binary operator on numbers. -/
def applyArithmetic (op : Operator) (l r : Int32) : Except EvalError Int32 :=
  match op with
  | .sla => do shiftLeftArithmetic l (← shiftCount r)
  | .sll => do return shiftLeftLogical l (← shiftCount r)
  | .srl => do return shiftRightLogical l (← shiftCount r)
  | .sra => do return shiftRightArithmetic l (← shiftCount r)
  | .and => .ok (l &&& r)
  | .or => .ok (l ||| r)
  | .xor => .ok (l ^^^ r)
  | .andNot => .ok (l &&& ~~~r)
  | .orNot => .ok (l ||| ~~~r)
  | .xorNot => .ok (l ^^^ ~~~r)
  | _ => .error (.typeMismatch op)

/-- The value of a binary operator on truth values. -/
def applyBoolean (op : Operator) (l r : Bool) : Except EvalError Bool :=
  match op with
  | .and => .ok (l && r)
  | .or => .ok (l || r)
  | .xor => .ok (l ^^ r)
  | .andNot => .ok (l && !r)
  | .orNot => .ok (l || !r)
  | .xorNot => .ok (l ^^ !r)
  | _ => .error (.typeMismatch op)

/-- The value of a binary operator on texts. -/
def applyCharacter (op : Operator) (l r : String) : Except EvalError Int32 :=
  match op with
  | .find => .ok (findAny l.toList r.toList)
  | .index => .ok (findText l.toList r.toList)
  | _ => .error (.typeMismatch op)

/-- The value of a binary operator: a comparison, or an operation on two values of one kind. -/
def applyBinary (op : Operator) (l r : Value) : Except EvalError Value :=
  match comparison? op with
  | some holds =>
      match compareValues l r with
      | some ordering => .ok (.boolean (holds ordering))
      | none => .error (.typeMismatch op)
  | none =>
      match l, r with
      | .arithmetic l, .arithmetic r => do return .arithmetic (← applyArithmetic op l r)
      | .boolean l, .boolean r => do return .boolean (← applyBoolean op l r)
      | .character l, .character r => do return .arithmetic (← applyCharacter op l r)
      | _, _ => .error (.typeMismatch op)

/-- The value of a function on a number, if it has one. -/
def applyToNumber (f : Function) (i : Int32) : Option Value :=
  match f with
  | .a2b => some (.character (Numeral.binary 32 i))
  | .a2d => some (.character (Numeral.signed i))
  | .a2x => some (.character (Numeral.hexadecimal 8 i))
  | .byte => (byteText? i).map .character
  | .signed => some (.character (Numeral.decimal i))
  | _ => none

/-- The value of a function of one argument on a text, if it has one. -/
def applyToText (f : Function) (s : String) : Option Value :=
  match f with
  | .b2a => (bits? 2 s).map .arithmetic
  | .d2a => (number? s).map .arithmetic
  | .dclen => some (.arithmetic (Int32.ofNat (undoubledLength s.toList)))
  | .isbin => some (.boolean (isNumeral 2 32 s))
  | .isdec => some (.boolean (isDecimal s))
  | .ishex => some (.boolean (isNumeral 16 8 s))
  | .b2d => (bits? 2 s).map fun i => .character (Numeral.signed i)
  | .b2x => (bits? 2 s).map fun i => .character (Numeral.hexadecimal 0 i)
  | .d2b => (number? s).map fun i => .character (Numeral.binary 32 i)
  | .d2x => (number? s).map fun i => .character (Numeral.hexadecimal 0 i)
  | .dequote => some (.character (String.ofList (dequoted s.toList)))
  | .double => some (.character (String.ofList (doubled s.toList)))
  | .lower => some (.character (Text.lower s))
  | .upper => some (.character (Text.upper s))
  | .x2b =>
      (bits? 16 s).map fun i => .character (Numeral.binary (4 * Text.byteLength s.toList) i)
  | .x2d => (bits? 16 s).map fun i => .character (Numeral.signed i)
  | _ => none

/-- The value of a function on as many arguments as it takes. A function that needs the program
has none, whatever its arguments. -/
def applyFunction (f : Function) (args : List Value) : Except EvalError Value :=
  if f.needsProgram then .error (.notEvaluable f)
  else
    let value := match f, args with
      | .find, [.character s, .character set] =>
          some (.arithmetic (findAny s.toList set.toList))
      | .index, [.character s, .character needle] =>
          some (.arithmetic (findText s.toList needle.toList))
      | f, [.arithmetic i] => applyToNumber f i
      | f, [.character s] => applyToText f s
      | _, _ => none
    match value with
    | some v => .ok v
    | none => .error (.invalidArgument f)

mutual
/-- The value of an expression, with the values of variable symbols given by `lookup`. Arguments
are counted before any of them is evaluated. -/
def Expr.evaluate (lookup : VariableSymbol → Option Value) : Expr → Except EvalError Value
  | .number i _ => .ok (.arithmetic i)
  | .text s _ => .ok (.character s)
  | .reference v =>
      match lookup v, v.name? with
      | some value, _ => .ok value
      | none, some name => .error (.undefinedVariable name)
      | none, none => .error .undefinedCreatedVariable
  | .unary op e _ => do applyUnary op (← e.evaluate lookup)
  | .binary op l r _ => do
      let left ← l.evaluate lookup
      let right ← r.evaluate lookup
      applyBinary op left right
  | .call f args _ =>
      if args.length ≠ f.arity then .error (.argumentCount f args.length)
      else do applyFunction f (← Expr.evaluateEach lookup args)

/-- The values of several expressions, up to the first that has none. -/
def Expr.evaluateEach (lookup : VariableSymbol → Option Value) :
    List Expr → Except EvalError (List Value)
  | [] => .ok []
  | e :: rest => do
      let value ← e.evaluate lookup
      let values ← Expr.evaluateEach lookup rest
      return value :: values
end

end MacroAssembler.Conditional
