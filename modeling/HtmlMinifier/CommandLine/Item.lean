import HtmlMinifier.CommandLine.Argument
import HtmlMinifier.CommandLine.Keyword

/-!
# Items of the command line

Arguments are read from left to right into items. A keyword that takes a value takes the whole next
argument, whatever that is; the value may also be joined to the keyword, after a short one with or
without an equals sign, after a long one with it. Two hyphens end the items, and nothing may follow
them. A keyword that takes a value and stands last, with none to take, ends the items as well.
-/

namespace HtmlMinifier

/-- What one or two arguments say. -/
inductive Item where
  /-- A text is asked for. -/
  | ask (request : Request)
  /-- A field is given a value. -/
  | set (field : Field) (value : String)
  /-- Something that is not accepted. -/
  | unknown
deriving DecidableEq, Repr

namespace Item

/-- A text without the equals sign it may start with. -/
def dropEquals : Text → Text
  | '=' :: v => v
  | v => v

/-- The item of a keyword with a value joined to it. A keyword that takes no value ignores it. -/
def ofJoined (name value : Text) : Item :=
  match Keyword.purpose? name with
  | some (.ask request) => ask request
  | some (.set field) => set field (String.ofList (dropEquals value))
  | none => unknown

/-- The item of an argument that is no keyword by itself: a hyphen, a letter or digit and more, or
two hyphens, a letter or digit and more with an equals sign in it. -/
def ofText : Text → Item
  | '-' :: c :: v =>
    if v.isEmpty then unknown
    else if c.isAlphanum then ofJoined ['-', c] v
    else
      match c, v with
      | '-', d :: _ =>
        if d.isAlphanum && v.contains '=' then
          ofJoined ('-' :: '-' :: v.takeWhile (· != '=')) (v.dropWhile (· != '='))
        else unknown
      | _, _ => unknown
  | _ => unknown

/-- The items of some arguments. -/
def ofArguments : List Argument → List Item
  | [] => []
  | .undecodable :: args => unknown :: ofArguments args
  | .text s :: args =>
    if s.isEmpty then ofArguments args
    else if s == "--" then if args.isEmpty then [] else [unknown]
    else
      match Keyword.purpose? s.toList with
      | some (.ask request) => ask request :: ofArguments args
      | some (.set field) =>
        match args with
        | [] => []
        | .text value :: args => set field value :: ofArguments args
        | .undecodable :: args => unknown :: ofArguments args
      | none => ofText s.toList :: ofArguments args

end Item

end HtmlMinifier
