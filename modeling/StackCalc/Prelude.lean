import StackCalc.Evaluation.Run

/-!
The standard word library, which is a program of the language itself, and the start of a session.
-/
namespace StackCalc

namespace Prelude

/-- The lines of the standard word library. -/
def lines : List String :=
  [
    "# calc prelude",
    "#",
    "# Loaded into every session before user code unless disabled. Everything",
    "# here is ordinary calc: any word may be redefined with def.",
    "#",
    "# Stack effects are written ( before -- after ), top of stack on the right.",
    "",
    "# ---------------------------------------------------------------------------",
    "# Arithmetic",
    "# ---------------------------------------------------------------------------",
    "",
    ",+ ,add alias",
    ",- ,sub alias",
    ",* ,mul alias",
    ",/ ,div alias",
    ",% ,mod alias",
    "",
    "# ( n -- n+1 )",
    ",++ { 1 add } def",
    "# ( n -- n-1 )",
    ",-- { 1 sub } def",
    "",
    ",neg { -1 mul } def",
    "# ( n -- -1|0|1 )",
    ",sign { 0 cmp } def",
    ",abs { dup sign mul } def",
    ",sq { dup mul } def",
    ",sqrt { 0.5 pow } def",
    "# ( n -- 1/n )",
    ",inv { 1 swap div } def",
    "",
    ",e { 2.718281828459045 } def",
    ",ln { e log } def",
    "",
    "# ---------------------------------------------------------------------------",
    "# Comparison and logic",
    "#",
    "# Results are 1 for true and 0 for false; if and filter treat any non-zero",
    "# number as true.",
    "# ---------------------------------------------------------------------------",
    "",
    ",eq { cmp dup mul 1 swap sub } def",
    ",gt { cmp 0 max } def",
    ",lt { swap gt } def",
    ",not { 0 eq } def",
    ",ne { eq not } def",
    ",ge { lt not } def",
    ",le { gt not } def",
    ",and { mul 0 eq not } def",
    ",or { abs swap abs add 0 gt } def",
    "",
    "# ---------------------------------------------------------------------------",
    "# Stack",
    "# ---------------------------------------------------------------------------",
    "",
    "# ( a b -- b )",
    ",nip { swap pop } def",
    "# ( a b -- b a b )",
    ",tuck { swap over } def",
    "# ( a b -- a b a b )",
    ",2dup { over over } def",
    ",2pop { pop pop } def",
    "# ( a b c -- b c a )",
    ",rot { roll3 } def",
    "# ( a b c -- c a b )",
    ",-rot { roll3 roll3 } def",
    "# print without consuming",
    ",peek { dup print } def",
    "",
    "# ---------------------------------------------------------------------------",
    "# Sequences",
    "# ---------------------------------------------------------------------------",
    "",
    "# ( lo hi -- [lo .. hi] ) always contains lo",
    ",range { [ arg arg swap over sub { dup ++ } swap 0 max repeat ] } def",
    "# ( n -- [1 .. n] )",
    ",seq { 1 swap range } def",
    "",
    ",product { 1 { mul } fold } def",
    ",max-of { { max } fold1 } def",
    ",min-of { { min } fold1 } def",
    "",
    "# ( seq -- mean ) fails on an empty sequence",
    ",avg { dup { add } fold1 swap len div } def",
    ",mean ,avg alias",
    "# population variance",
    ",var { dup avg swap { over sub sq } map swap pop avg } def",
    ",stddev { var sqrt } def",
    "",
    "# ---------------------------------------------------------------------------",
    "# Combinatorics",
    "# ---------------------------------------------------------------------------",
    "",
    ",! { seq product } def",
    ",fact ,! alias",
    "# ( n k -- n!/(k!(n-k)!) )",
    ",choose { over over sub ! roll3 ! roll3 ! roll3 mul div } def",
    "",
    "# ---------------------------------------------------------------------------",
    "# Control",
    "# ---------------------------------------------------------------------------",
    "",
    "# ( cond quot -- ... )",
    ",when { { } if } def",
    ",unless { { } swap if } def"
  ]

/-- The characters of the standard word library. -/
def text : List Char :=
  lines.flatMap fun line => line.toList ++ ['\n']

/-- The source text of the standard word library. -/
def source : String :=
  String.ofList text

end Prelude

/-- A session with the primitives, and with the standard word library if the settings ask for it. -/
def Session.start (settings : Settings) (input : List UInt8) (output : Output) :
    Except EvalError Session :=
  let session : Session := { settings, input, output }
  if settings.loadPrelude then
    match Eval.load Prelude.source session with
    | .ok () session => .ok session
    | .error error _ => .error error
  else .ok session

end StackCalc
