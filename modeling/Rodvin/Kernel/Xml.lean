/-
  Rodvin.Kernel.Xml — the XML reader (`kernel/src/common/Xml.cpp`: `XmlParse`,
  `XmlRead`), its tree (`Xml.h`) and the grammar it follows.

  The reader draws its tokens from a source: a state and a function that gives the next
  token and the state behind it, as `XmlTok` does with `index`, `line` and `chr`. Texts
  are the bytes of the strings. Nodes carry the number of their construction, so that
  what is constructed and what is deleted can be followed; a node not deleted on an
  error path is lost.

  The two loops that the source writes out twice are one definition each: `attributes`
  (the same body in both places) and `children`. What differs is what the callers do
  when a loop fails: `XmlRead` deletes its node, `XmlParse` does not.

  Every recursion runs on fuel.
-/

import Rodvin.Libc.Vectormap

namespace Rodvin.Kernel.Xml

open Rodvin.Libc

abbrev Text := List UInt8

/-- `strcmp` on the bytes before the terminators, as signed characters. -/
def strcmp : List UInt8 → List UInt8 → Int
  | a :: as, b :: bs => if a ≠ 0 ∧ a = b then strcmp as bs else a.toInt8.toInt - b.toInt8.toInt
  | a :: _, [] => a.toInt8.toInt
  | [], b :: _ => - b.toInt8.toInt
  | [], [] => 0

inductive TokenType where
  | Open
  | Slash
  | Close
  | String
  | Equals
  | ExclMinMin
  | MinMinClose
  | EndOfFile
  deriving DecidableEq, Repr

structure XmlToken where
  type : TokenType
  text : Text
  line : Int
  chr : Int
  deriving DecidableEq, Repr

inductive XmlNode where
  | mk (id : Nat) (type : Text) (attributes : List (Text × Text)) (children : List XmlNode)

structure Env (σ : Type) where
  src : σ
  constructed : Nat
  deleted : List Nat

variable {σ : Type}

mutual

/-- The nodes a `delete` destroys, in the order of `~XmlNode`: the children first. -/
def XmlNode.ids : XmlNode → List Nat
  | .mk id _ _ children => idsOf children ++ [id]

def idsOf : List XmlNode → List Nat
  | [] => []
  | n :: ns => n.ids ++ idsOf ns

end

def Env.delete (s : Env σ) (n : XmlNode) : Env σ := { s with deleted := s.deleted ++ n.ids }

/-- `new XmlNode()`. -/
def Env.construct (s : Env σ) : Nat × Env σ := (s.constructed, { s with constructed := s.constructed + 1 })

section Reader

variable (XmlTok : σ → XmlToken × σ)

def next (s : Env σ) : XmlToken × Env σ := ((XmlTok s.src).1, { s with src := (XmlTok s.src).2 })

/-- `"true"`. -/
def trueText : Text := [0x74, 0x72, 0x75, 0x65]

/-- The attribute loop from `token` on; an inner `none` is the error return. -/
def attributes : Nat → XmlToken → List (Text × Text) → Env σ →
    Option (Option (XmlToken × List (Text × Text)) × Env σ)
  | 0, _, _, _ => none
  | fuel + 1, token, attrs, s =>
    if token.type = .String then
      let name := token
      let token := next XmlTok s
      if token.1.type = .Equals then
        let token := next XmlTok token.2
        if token.1.type ≠ .String then some (none, token.2)
        else
          let attrs := Vectormap.insert attrs (name.text, token.1.text)
          let token := next XmlTok token.2
          attributes fuel token.1 attrs token.2
      else attributes fuel token.1 (Vectormap.insert attrs (name.text, trueText)) token.2
    else some (some (token, attrs), s)

/-- The end of `XmlParse`: `>` and the `<` of what follows. -/
def closeAndOpen (node : XmlNode) (s : Env σ) : Option XmlNode × Env σ :=
  let token := next XmlTok s
  if token.1.type ≠ .Close then (none, token.2.delete node)
  else
    let token := next XmlTok token.2
    if token.1.type ≠ .Open then (none, token.2.delete node) else (some node, token.2)

mutual

def XmlParse : Nat → XmlToken → Env σ → Option (Option XmlNode × Env σ)
  | 0, _, _ => none
  | fuel + 1, tok, s =>
    if tok.type ≠ .String then some (none, s)
    else
      let node := s.construct
      let token := next XmlTok node.2
      match attributes XmlTok fuel token.1 [] token.2 with
      | none => none
      | some (none, s) => some (none, s)                 -- node is not deleted
      | some (some (token, attrs), s) =>
        if token.type = .Slash then some (closeAndOpen XmlTok (.mk node.1 tok.text attrs []) s)
        else if token.type = .Close then
          let token := next XmlTok s
          if token.1.type ≠ .Open then some (none, token.2.delete (.mk node.1 tok.text attrs []))
          else
            let token := next XmlTok token.2
            match children fuel token.1 [] token.2 with
            | none => none
            | some (none, _, s) => some (none, s)        -- nor here
            | some (some (), kids, s) =>
              let token := next XmlTok s
              if token.1.type ≠ .String then some (none, token.2.delete (.mk node.1 tok.text attrs kids))
              else if strcmp token.1.text tok.text ≠ 0 then
                some (none, token.2.delete (.mk node.1 tok.text attrs kids))
              else some (closeAndOpen XmlTok (.mk node.1 tok.text attrs kids) token.2)
        else some (none, s.delete (.mk node.1 tok.text attrs []))

/-- The loop over the children from `token` on, with the children read so far. -/
def children : Nat → XmlToken → List XmlNode → Env σ → Option (Option Unit × List XmlNode × Env σ)
  | 0, _, _, _ => none
  | fuel + 1, token, kids, s =>
    if token.type ≠ .Slash then
      match XmlParse fuel token s with
      | none => none
      | some (none, s) => some (none, kids, s)
      | some (some cnode, s) =>
        let token := next XmlTok s
        children fuel token.1 (kids ++ [cnode]) token.2
    else some (some (), kids, s)

end

def XmlRead (fuel : Nat) (s : Env σ) : Option (Option XmlNode × Env σ) :=
  let node := s.construct
  let token := next XmlTok node.2
  if token.1.type ≠ .Open then some (none, token.2.delete (.mk node.1 [] [] []))
  else
    let openName := next XmlTok token.2
    if openName.1.type ≠ .String then some (none, openName.2.delete (.mk node.1 [] [] []))
    else
      let token := next XmlTok openName.2
      match attributes XmlTok fuel token.1 [] token.2 with
      | none => none
      | some (none, s) => some (none, s.delete (.mk node.1 openName.1.text [] []))
      | some (some (token, attrs), s) =>
        if token.type ≠ .Close then some (none, s.delete (.mk node.1 openName.1.text attrs []))
        else
          let token := next XmlTok s
          if token.1.type ≠ .Open then some (none, token.2.delete (.mk node.1 openName.1.text attrs []))
          else
            let token := next XmlTok token.2
            match children XmlTok fuel token.1 [] token.2 with
            | none => none
            | some (none, kids, s) => some (none, s.delete (.mk node.1 openName.1.text attrs kids))
            | some (some (), kids, s) =>
              let token := next XmlTok s
              if token.1.type ≠ .String then some (none, token.2.delete (.mk node.1 openName.1.text attrs kids))
              else if strcmp token.1.text openName.1.text ≠ 0 then
                some (none, token.2.delete (.mk node.1 openName.1.text attrs kids))
              else
                let token := next XmlTok token.2
                if token.1.type ≠ .Close then some (none, token.2.delete (.mk node.1 openName.1.text attrs kids))
                else
                  let token := next XmlTok token.2
                  if token.1.type ≠ .EndOfFile then some (none, token.2.delete (.mk node.1 openName.1.text attrs kids))
                  else some (some (.mk node.1 openName.1.text attrs kids), token.2)

end Reader

/-! ## The grammar -/

inductive Tree where
  | node (type : Text) (attributes : List (Text × Text)) (children : List Tree)

mutual

/-- The tree of a node, without the numbers. -/
def XmlNode.tree : XmlNode → Tree
  | .mk _ type attrs children => .node type attrs (treesOf children)

def treesOf : List XmlNode → List Tree
  | [] => []
  | n :: ns => n.tree :: treesOf ns

end

/-- `Attrs ::= empty | S(k) Attrs | S(k) Equals S(v) Attrs`, with the keys and values given. -/
inductive Attrs : List XmlToken → List (Text × Text) → Prop
  | empty : Attrs [] []
  | flag {k : XmlToken} {ts : List XmlToken} {kvs : List (Text × Text)} :
    k.type = .String → Attrs ts kvs → Attrs (k :: ts) ((k.text, trueText) :: kvs)
  | pair {k e v : XmlToken} {ts : List XmlToken} {kvs : List (Text × Text)} :
    k.type = .String → e.type = .Equals → v.type = .String → Attrs ts kvs →
    Attrs (k :: e :: v :: ts) ((k.text, v.text) :: kvs)

/-- `S(n) Attrs`, with the name and the attributes in the order of their first occurrence. -/
inductive Head : List XmlToken → Text → List (Text × Text) → Prop
  | intro {n : XmlToken} {ts : List XmlToken} {kvs : List (Text × Text)} :
    n.type = .String → Attrs ts kvs → Head (n :: ts) n.text (Vectormap.ordered kvs)

/-- The token sequence of the given types. -/
inductive Are : List XmlToken → List TokenType → Prop
  | nil : Are [] []
  | cons {t : XmlToken} {ts : List XmlToken} {ty : TokenType} {tys : List TokenType} :
    t.type = ty → Are ts tys → Are (t :: ts) (ty :: tys)

mutual

/-- `Node ::= S(n) Attrs (Slash | Close Open Kids Slash S(n)) Close Open`. -/
inductive Node : List XmlToken → Tree → Prop
  | short {hd tl : List XmlToken} {n : Text} {attrs : List (Text × Text)} :
    Head hd n attrs → Are tl [.Slash, .Close, .Open] → Node (hd ++ tl) (.node n attrs [])
  | long {hd op ks tl : List XmlToken} {slash m : XmlToken} {n : Text} {attrs : List (Text × Text)} {trees : List Tree} :
    Head hd n attrs → Are op [.Close, .Open] → Kids ks trees → slash.type = .Slash → m.type = .String → m.text = n →
    Are tl [.Close, .Open] → Node (hd ++ (op ++ (ks ++ slash :: m :: tl))) (.node n attrs trees)

/-- `Kids ::= empty | Node Kids`. -/
inductive Kids : List XmlToken → List Tree → Prop
  | empty : Kids [] []
  | cons {ts us : List XmlToken} {tree : Tree} {trees : List Tree} :
    Node ts tree → Kids us trees → Kids (ts ++ us) (tree :: trees)

end

/-- `Root ::= Open S(n) Attrs Close Open Kids Slash S(n) Close EndOfFile`. -/
inductive Root : List XmlToken → Tree → Prop
  | intro {o : XmlToken} {hd op ks tl : List XmlToken} {slash m : XmlToken} {n : Text}
      {attrs : List (Text × Text)} {trees : List Tree} :
    o.type = .Open → Head hd n attrs → Are op [.Close, .Open] → Kids ks trees → slash.type = .Slash →
    m.type = .String → m.text = n → Are tl [.Close, .EndOfFile] →
    Root (o :: (hd ++ (op ++ (ks ++ slash :: m :: tl)))) (.node n attrs trees)

/-! ## Token lists -/

/-- A finite list of tokens up to its `EndOfFile`. -/
structure TokenList where
  body : List XmlToken
  proper : ∀ t ∈ body, t.type ≠ .EndOfFile
  nulFree : ∀ t ∈ body, 0 ∉ t.text

def endOfFile : XmlToken := ⟨.EndOfFile, [], 0, 0⟩

def TokenList.list (l : TokenList) : List XmlToken := l.body ++ [endOfFile]

/-- The source that hands out a list, and `EndOfFile` once it is exhausted. -/
def tokens : List XmlToken → XmlToken × List XmlToken
  | [] => (endOfFile, [])
  | t :: ts => (t, ts)

def initEnv (l : TokenList) : Env (List XmlToken) := ⟨l.list, 0, []⟩

end Rodvin.Kernel.Xml
