import Deadwood.Index.Providers
import Deadwood.Reference.Token

/-!
# References to exports

How often an exported name is used outside of the file that exports it. Names are counted as tokens
in the texts of all other candidates, comments and quoted texts included. The default export has no
name of its own, so its uses are the edges that bind it.
-/

set_option autoImplicit false

namespace Deadwood.Reference

/-- How often `name`, exported by `owner`, stands as a token in the texts that `read` gives for
`paths`. The owner and the files in `skipped` are not searched. -/
def countIn (name owner : String) (skipped : List String) (read : String → List Char) :
    (paths : List String) → Nat
  | [] => 0
  | path :: paths =>
    let rest := countIn name owner skipped read paths
    if path = owner ∨ path ∈ skipped then rest else countTokens name (read path) + rest

/-- How often the default export of `owner` is used. -/
def countDefault (index : Index) (owner : String) : Nat :=
  ((index.edgesTo owner).filter Edge.bindsDefault).length

/-- How often `name`, exported by `owner`, is used in the candidates. -/
def count (index : Index) (name owner : String) (skipped : List String) : Nat :=
  if name = "default" then countDefault index owner
  else countIn name owner skipped index.textOf index.paths

/-- Names that a candidate exports, which come with the files that supply them, with how often they
are used. The files that supply a name do not count as users. -/
def countEach (index : Index) (path : String) (exports : Index.Suppliers) : List (String × Nat) :=
  exports.map fun (name, files) => (name, count index name path files)

/-- The exported names of a candidate with how often they are used. -/
def exportCounts (index : Index) (path : String) : List (String × Nat) :=
  countEach index path (index.suppliers path)

end Deadwood.Reference
