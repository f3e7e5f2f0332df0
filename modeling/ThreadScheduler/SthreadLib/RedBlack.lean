import ThreadScheduler.Lib.RedBlack
import Mathlib.Data.Int.Notation
import Mathlib.Data.Nat.Notation

/-!
# The red-black tree of the scheduler

`redblack.c` on a memory of nodes: each field of `NoRB` is a table over addresses. A tree
allocates its two sentinels first. Loops run on a fuel that counts all addresses given out,
which no pointer chain of a tree exceeds.
-/
namespace ThreadScheduler.SthreadLib

open PointerTree RedBlack

/-- `struct ArvoreRB_t`, with the nodes it has allocated. `elem` is `none` for `NULL`, and so
is `minimo`; `prox` is the next address `malloc` gives out. -/
structure ArvoreRB (α : Type*) extends Links ℕ where
  chave : ℕ → ℤ
  elem : ℕ → Option α
  tid : ℕ → ℤ
  cor : ℕ → Color
  minimo : Option ℕ
  prox : ℕ

/-- The sentinel under the leaves. -/
abbrev nil : ℕ := 0

/-- The sentinel over the real root, which is its left child. -/
abbrev raiz : ℕ := 1

namespace ArvoreRB

variable {α : Type*} (a : ArvoreRB α)

def esq (p : ℕ) : ℕ := a.child .left p

def dir (p : ℕ) : ℕ := a.child .right p

/-- A store to `esq` or `dir`. -/
def setChild (s : Side) (p v : ℕ) : ArvoreRB α :=
  { a with child := fun m q => if m = s ∧ q = p then v else a.child m q }

def setPai (p v : ℕ) : ArvoreRB α := { a with parent := Function.update a.parent p v }

def setCor (p : ℕ) (c : Color) : ArvoreRB α := { a with cor := Function.update a.cor p c }

def setElem (p : ℕ) (e : Option α) : ArvoreRB α := { a with elem := Function.update a.elem p e }

end ArvoreRB

variable {α : Type*}

/-- `comparar`: the key -1 on the left is greater than every key. -/
def comparar (A B : ℤ) : ℤ := if A > B ∨ A = -1 then 1 else if A = B then 0 else -1

/-- `RBNovaArvore`. -/
def rbNovaArvore : ArvoreRB α where
  child _ _ := nil
  parent _ := nil
  chave _ := -1
  elem _ := none
  tid _ := -1
  cor _ := .black
  minimo := none
  prox := 2

/-- `RodarEsquerda` for `s` the left side, `RodarDireita` for the right: the child of `x` on
the other side takes the place of `x`. -/
def rodar (s : Side) (a : ArvoreRB α) (x : ℕ) : ArvoreRB α :=
  let y := a.child s.flip x
  let a := a.setChild s.flip x (a.child s y)
  let a := if a.child s y ≠ nil then a.setPai (a.child s y) x else a
  let a := a.setPai y (a.parent x)
  let a := if x = a.esq (a.parent x) then a.setChild .left (a.parent x) y
    else a.setChild .right (a.parent x) y
  let a := a.setChild s y x
  a.setPai x y

def rodarEsquerda (a : ArvoreRB α) (x : ℕ) : ArvoreRB α := rodar .left a x

def rodarDireita (a : ArvoreRB α) (y : ℕ) : ArvoreRB α := rodar .right a y

/-! ## Insertion -/

/-- The loop of `InserirNoAux`, from the node `x` under `y`: the node to hang the key from. -/
def descer (a : ArvoreRB α) (chave : ℤ) : ℕ → ℕ → ℕ → ℕ
  | 0, y, _ => y
  | n + 1, y, x =>
      if x = nil then y
      else if comparar (a.chave x) chave = 1 then descer a chave n x (a.esq x)
      else descer a chave n x (a.dir x)

/-- `InserirNoAux`. -/
def inserirNoAux (a : ArvoreRB α) (z : ℕ) : ArvoreRB α :=
  let a := (a.setChild .left z nil).setChild .right z nil
  let y := descer a (a.chave z) a.prox raiz (a.esq raiz)
  let a := a.setPai z y
  if y = raiz ∨ comparar (a.chave y) (a.chave z) = 1 then a.setChild .left y z
  else a.setChild .right y z

/-- One turn of the loop of `RBInserirNo`, for a parent on the side `s` of its own parent. -/
def passoInserir (s : Side) (a : ArvoreRB α) (x : ℕ) : ArvoreRB α × ℕ :=
  let y := a.child s.flip (a.parent (a.parent x))
  if a.cor y = .red then
    let a := a.setCor (a.parent x) .black
    let a := a.setCor y .black
    let a := a.setCor (a.parent (a.parent x)) .red
    (a, a.parent (a.parent x))
  else
    let (a, x) :=
      if x = a.child s.flip (a.parent x) then (rodar s a (a.parent x), a.parent x) else (a, x)
    let a := a.setCor (a.parent x) .black
    let a := a.setCor (a.parent (a.parent x)) .red
    (rodar s.flip a (a.parent (a.parent x)), x)

/-- The loop of `RBInserirNo`, while the parent is red. -/
def repararInserido : ℕ → ArvoreRB α → ℕ → ArvoreRB α
  | 0, a, _ => a
  | n + 1, a, x =>
      if a.cor (a.parent x) = .red then
        let r :=
          if a.parent x = a.esq (a.parent (a.parent x)) then passoInserir .left a x
          else passoInserir .right a x
        repararInserido n r.1 r.2
      else a

/-- `CriarNo`: a red node that is linked to nothing yet. -/
def criarNo (a : ArvoreRB α) (chave : ℤ) (elemento : α) (tid : ℤ) : ArvoreRB α :=
  { a with
    chave := Function.update a.chave a.prox chave
    elem := Function.update a.elem a.prox (some elemento)
    tid := Function.update a.tid a.prox tid
    cor := Function.update a.cor a.prox .red
    prox := a.prox + 1 }

/-- `RBInserirNo`. -/
def rbInserirNo (a : ArvoreRB α) (chave : ℤ) (tid : ℤ) (elemento : α) : ArvoreRB α :=
  let novoNo := a.prox
  let a := inserirNoAux (criarNo a chave elemento tid) novoNo
  let a := repararInserido a.prox a novoNo
  let a := a.setCor (a.esq raiz) .black
  match a.minimo with
  | none => { a with minimo := some novoNo }
  | some m =>
      if comparar (a.chave m) (a.chave novoNo) = 1 then { a with minimo := some novoNo } else a

/-! ## Removal -/

/-- The leftmost node under `y`. -/
def maisEsquerda (a : ArvoreRB α) : ℕ → ℕ → ℕ
  | 0, y => y
  | n + 1, y => if a.esq y ≠ nil then maisEsquerda a n (a.esq y) else y

/-- The climb of `Sucessor` while `x` is a right child. -/
def subir (a : ArvoreRB α) : ℕ → ℕ → ℕ → ℕ
  | 0, _, y => y
  | n + 1, x, y => if x = a.dir y then subir a n y (a.parent y) else y

/-- `Sucessor`. -/
def sucessor (a : ArvoreRB α) (x : ℕ) : ℕ :=
  if a.dir x ≠ nil then maisEsquerda a a.prox (a.dir x)
  else
    let y := subir a a.prox x (a.parent x)
    if y = raiz then nil else y

/-- The start of a turn of the loop of `RepararEliminado`, for `x` on the side `s` of its parent:
a red brother `w` is rotated up, so that `x` gets a black one. -/
def irmaoPreto (s : Side) (a : ArvoreRB α) (x : ℕ) : ArvoreRB α × ℕ :=
  let w := a.child s.flip (a.parent x)
  if a.cor w = .red then
    let a := a.setCor w .black
    let a := a.setCor (a.parent x) .red
    let a := rodar s a (a.parent x)
    (a, a.child s.flip (a.parent x))
  else (a, w)

/-- The child of the brother `w` away from `x` is made red, from the child on the side of `x`. -/
def sobrinhoVermelho (s : Side) (a : ArvoreRB α) (x w : ℕ) : ArvoreRB α × ℕ :=
  if a.cor (a.child s.flip w) = .black then
    let a := a.setCor (a.child s w) .black
    let a := a.setCor w .red
    let a := rodar s.flip a w
    (a, a.child s.flip (a.parent x))
  else (a, w)

/-- The end of the turn, for a black brother `w`; `fim` is the root that the function read
first, which ends the loop. -/
def subirOuFechar (s : Side) (fim : ℕ) (a : ArvoreRB α) (x w : ℕ) : ArvoreRB α × ℕ :=
  if a.cor (a.child s.flip w) = .black ∧ a.cor (a.child s w) = .black then
    (a.setCor w .red, a.parent x)
  else
    let (a, w) := sobrinhoVermelho s a x w
    let a := a.setCor w (a.cor (a.parent x))
    let a := a.setCor (a.parent x) .black
    let a := a.setCor (a.child s.flip w) .black
    (rodar s a (a.parent x), fim)

/-- One turn of the loop of `RepararEliminado`, for `x` on the side `s` of its parent. -/
def passoEliminar (s : Side) (fim : ℕ) (a : ArvoreRB α) (x : ℕ) : ArvoreRB α × ℕ :=
  let (a, w) := irmaoPreto s a x
  subirOuFechar s fim a x w

/-- The loop of `RepararEliminado`. -/
def repararEliminadoLoop (fim : ℕ) : ℕ → ArvoreRB α → ℕ → ArvoreRB α × ℕ
  | 0, a, x => (a, x)
  | n + 1, a, x =>
      if a.cor x = .black ∧ fim ≠ x then
        let r :=
          if x = a.esq (a.parent x) then passoEliminar .left fim a x
          else passoEliminar .right fim a x
        repararEliminadoLoop fim n r.1 r.2
      else (a, x)

/-- `RepararEliminado`. -/
def repararEliminado (a : ArvoreRB α) (x : ℕ) : ArvoreRB α :=
  let r := repararEliminadoLoop (a.esq raiz) (a.prox + 1) a x
  r.1.setCor r.2 .black

/-- The start of `RBRemoverNo`: node `y` leaves the tree, its only child `x` takes its
place. -/
def desligar (a : ArvoreRB α) (y x : ℕ) : ArvoreRB α :=
  let a := a.setPai x (a.parent y)
  if raiz = a.parent x then a.setChild .left raiz x
  else if y = a.esq (a.parent y) then a.setChild .left (a.parent y) x
  else a.setChild .right (a.parent y) x

/-- The end of `RBRemoverNo`: node `y` takes the place of node `z`. -/
def substituir (a : ArvoreRB α) (z y : ℕ) : ArvoreRB α :=
  let a := a.setChild .left y (a.esq z)
  let a := a.setChild .right y (a.dir z)
  let a := a.setPai y (a.parent z)
  let a := a.setCor y (a.cor z)
  let a := a.setPai (a.dir z) y
  let a := a.setPai (a.esq z) y
  if z = a.esq (a.parent z) then a.setChild .left (a.parent z) y
  else a.setChild .right (a.parent z) y

/-- The update of `minimo` when node `z` goes. -/
def actualizarMinimo (a : ArvoreRB α) (z : ℕ) : ArvoreRB α :=
  if a.minimo = some z then
    { a with minimo := if a.dir z ≠ nil then some (a.dir z) else some (a.parent z) }
  else a

/-- `RBRemoverNo`. The callers have cleared `elem`, so `free` has nothing to free; the node
keeps its fields once it is freed. -/
def rbRemoverNo (a : ArvoreRB α) (z : ℕ) : ArvoreRB α :=
  let y := if a.esq z = nil ∨ a.dir z = nil then z else sucessor a z
  let x := if a.esq y = nil then a.dir y else a.esq y
  let a := desligar a y x
  let a := if a.cor y = .black then repararEliminado a x else a
  actualizarMinimo (if y ≠ z then substituir a z y else a) z

/-! ## Queries -/

/-- `RBMenorChave`. -/
def rbMenorChave (a : ArvoreRB α) : ℤ :=
  match a.minimo with
  | none => 0
  | some m => a.chave m

/-- `RBArvoreVazia`. -/
def rbArvoreVazia (a : ArvoreRB α) : Bool := a.esq raiz = nil

/-- `RBExtraiMininimo`: the element of the least node, `none` for `NULL`. -/
def rbExtraiMininimo (a : ArvoreRB α) : ArvoreRB α × Option α :=
  match a.minimo with
  | none => (a, none)
  | some m => (rbRemoverNo (a.setElem m none) m, a.elem m)

/-- `RBSearchTIDAUX`, in preorder. -/
def rbSearchTIDAux (a : ArvoreRB α) (tid : ℤ) : ℕ → ℕ → Bool
  | 0, _ => false
  | n + 1, no =>
      if no = nil then false
      else if a.tid no = tid then true
      else rbSearchTIDAux a tid n (a.esq no) || rbSearchTIDAux a tid n (a.dir no)

/-- `RBSearchTID`. -/
def rbSearchTID (a : ArvoreRB α) (tid : ℤ) : Bool := rbSearchTIDAux a tid a.prox (a.esq raiz)

end ThreadScheduler.SthreadLib
