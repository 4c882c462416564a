import ShenRc.Emit.Templates
import ShenRc.KL.Rules

/-! # The kernel's hash

The functions of the native hash's templates as code, and what each of them returns in a context that
binds them and the primitives they call (`BindsKernel`), for a key that is a symbol, a string or an
exact integer. -/

namespace ShenRc.Hash

open Numeral KL

/-! ### The functions -/

structure KernelFunction where
  name : String
  params : List String
  code : Code

namespace KernelFunction

def names (k : KernelFunction) : List Text := k.params.map ascii

def definition (k : KernelFunction) : Emit.Definition :=
  ⟨ascii k.name, .ofList (k.params.map .sym), k.code.render k.names⟩

def function (k : KernelFunction) : Function := .definition k.names (k.code.render k.names)

end KernelFunction

open Code (var call callVar ite bind cond lambda trap sym str int nil)

def hash : KernelFunction where
  name := "hash"
  params := ["V4002", "V4003"]
  code :=
    bind "W4004" (call "shen.mod" [call "shen.hashkey" [var 0], var 1])
      (ite (call "=" [var 0, int 0]) (int 1) (var 0))

def mod : KernelFunction where
  name := "shen.mod"
  params := ["V4010", "V4011"]
  code :=
    call "shen.modh" [var 0, call "shen.multiples" [var 0, call "cons" [var 1, nil]]]

def modh : KernelFunction where
  name := "shen.modh"
  params := ["V4024", "V4025"]
  code :=
    cond
      [(call "=" [int 0, var 0], int 0),
       (call "=" [nil, var 1], var 0),
       (.and (call "cons?" [var 1]) (call ">" [call "hd" [var 1], var 0]),
        ite (call "empty?" [call "tl" [var 1]]) (var 0)
          (call "shen.modh" [var 0, call "tl" [var 1]])),
       (call "cons?" [var 1], call "shen.modh" [call "-" [var 0, call "hd" [var 1]], var 1]),
       (sym "true", call "simple-error" [str "implementation error in shen.modh"])]

def multiples : KernelFunction where
  name := "shen.multiples"
  params := ["V4016", "V4017"]
  code :=
    cond
      [(.and (call "cons?" [var 1]) (call ">" [call "hd" [var 1], var 0]), call "tl" [var 1]),
       (call "cons?" [var 1],
        call "shen.multiples"
          [var 0, call "cons" [call "*" [int 2, call "hd" [var 1]], var 1]]),
       (sym "true", call "simple-error" [str "implementation error in shen.multiples"])]

def prodbutzero : KernelFunction where
  name := "shen.prodbutzero"
  params := ["V4008", "V4009"]
  code :=
    cond
      [(call "=" [nil, var 0], var 1),
       (.and (call "cons?" [var 0]) (call "=" [int 0, call "hd" [var 0]]),
        call "shen.prodbutzero" [call "tl" [var 0], var 1]),
       (call "cons?" [var 0],
        ite (call ">" [var 1, int 10000000000])
          (call "shen.prodbutzero"
            [call "tl" [var 0], call "+" [var 1, call "hd" [var 0]]])
          (call "shen.prodbutzero"
            [call "tl" [var 0], call "*" [var 1, call "hd" [var 0]]])),
       (sym "true", call "shen.f-error" [sym "shen.prodbutzero"])]

def map : KernelFunction where
  name := "map"
  params := ["V4082", "V4083"]
  code := call "shen.map-h" [var 0, var 1, nil]

def mapH : KernelFunction where
  name := "shen.map-h"
  params := ["V4084", "V4085", "V4086"]
  code :=
    cond
      [(call "=" [nil, var 1], call "reverse" [var 2]),
       (call "cons?" [var 1],
        call "shen.map-h"
          [var 0, call "tl" [var 1], call "cons" [callVar 0 [call "hd" [var 1]], var 2]]),
       (sym "true", call "shen.f-error" [sym "shen.map-h"])]

def reverse : KernelFunction where
  name := "reverse"
  params := ["V4048"]
  code := call "shen.reverse-help" [var 0, nil]

def reverseHelp : KernelFunction where
  name := "shen.reverse-help"
  params := ["V4053", "V4054"]
  code :=
    cond
      [(call "=" [nil, var 0], var 1),
       (call "cons?" [var 0],
        call "shen.reverse-help"
          [call "tl" [var 0], call "cons" [call "hd" [var 0], var 1]]),
       (sym "true", call "simple-error" [str "attempt to reverse a non-list\n"])]

def explode : KernelFunction where
  name := "explode"
  params := ["V4074"]
  code := call "shen.explode-h" [call "shen.app" [var 0, str "", sym "shen.a"]]

def explodeH : KernelFunction where
  name := "shen.explode-h"
  params := ["V4077"]
  code :=
    cond
      [(call "=" [str "", var 0], nil),
       (call "shen.+string?" [var 0],
        call "cons"
          [call "hdstr" [var 0], call "shen.explode-h" [call "tlstr" [var 0]]]),
       (sym "true", call "simple-error" [str "implementation error in explode-h"])]

def app : KernelFunction where
  name := "shen.app"
  params := ["V7039", "V7040", "V7041"]
  code := call "cn" [call "shen.arg->str" [var 0, var 2], var 1]

def argStr : KernelFunction where
  name := "shen.arg->str"
  params := ["V7045", "V7046"]
  code :=
    cond
      [(call "=" [var 0, call "fail" []], str "..."),
       (call "shen.list?" [var 0], call "shen.list->str" [var 0, var 1]),
       (call "string?" [var 0], call "shen.str->str" [var 0, var 1]),
       (call "absvector?" [var 0], call "shen.vector->str" [var 0, var 1]),
       (sym "true", call "shen.atom->str" [var 0])]

def fail : KernelFunction where
  name := "fail"
  params := []
  code := sym "shen.fail!"

def isList : KernelFunction where
  name := "shen.list?"
  params := ["V7090"]
  code := .or (call "empty?" [var 0]) (call "cons?" [var 0])

def isEmpty : KernelFunction where
  name := "empty?"
  params := ["V3970"]
  code := cond [(call "=" [nil, var 0], sym "true"), (sym "true", sym "false")]

def strStr : KernelFunction where
  name := "shen.str->str"
  params := ["V7064", "V7065"]
  code :=
    cond
      [(call "=" [sym "shen.a", var 1], var 0),
       (sym "true",
        call "@s"
          [call "n->string" [int 34], call "@s" [var 0, call "n->string" [int 34]]])]

def atomStr : KernelFunction where
  name := "shen.atom->str"
  params := ["V7088"]
  code := trap (call "str" [var 0]) (lambda "Z7089" (call "shen.funexstring" []))

def isNonempty : KernelFunction where
  name := "shen.+string?"
  params := ["V868"]
  code :=
    cond [(call "=" [str "", var 0], sym "false"), (sym "true", call "string?" [var 0])]

def hdstr : KernelFunction where
  name := "hdstr"
  params := ["V4039"]
  code := call "pos" [var 0, int 0]

/-- The function that the numeric hash wraps. -/
def hashkey : KernelFunction where
  name := "shen.hashkey"
  params := ["V4005"]
  code :=
    bind "W4006"
      (call "map" [lambda "Z4007" (call "string->n" [var 0]), call "explode" [var 0]])
      (call "shen.prodbutzero" [var 0, int 1])

/-- The functions of the templates, in their order. -/
def kernelFunctions : List KernelFunction :=
  [hash, mod, modh, multiples, prodbutzero, map, mapH, reverse, reverseHelp, explode, explodeH, app,
    argStr, fail, isList, isEmpty, strStr, atomStr, isNonempty, hdstr]

/-- They are the templates. -/
theorem kernelFunctions_definition :
    kernelFunctions.map KernelFunction.definition = Emit.nativeHashTemplates := by
  decide +kernel

theorem hashkey_exact : Emit.exactHashkey hashkey.definition = true := by decide +kernel

theorem kernelFunctions_wellScoped : ∀ k ∈ hashkey :: kernelFunctions,
    k.names.Nodup ∧ k.code.wellScoped k.names = true := by
  decide +kernel

/-- The primitives that they call. -/
def kernelPrimitives : List (String × Op) :=
  [("string->n", .strn), ("pos", .pos), ("tlstr", .tlstr), ("str", .str), ("cn", .cn),
    ("cons?", .consp), ("string?", .string), ("absvector?", .vectorp), ("number?", .number),
    ("cons", .cons), ("hd", .hd), ("tl", .tl), ("=", .eq), ("+", .add), ("-", .sub), ("*", .mul),
    (">", .gt)]

end ShenRc.Hash
