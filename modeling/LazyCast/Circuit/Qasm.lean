import LazyCast.Program
/-!
Bound programs as OpenQASM 2 text over dense qubit numbers, every measurement at the end.
-/
namespace LazyCast.Qasm

def qubitText (dense : Table Qubit Nat) (q : Qubit) : String :=
  "q[" ++ toString ((dense.find? q).getD 0) ++ "]"

/-- The line of an operation; measurements have none here. -/
def opLine? (dense : Table Qubit Nat) (op : NativeOp) : Option String :=
  let qubits := op.qubits.map (qubitText dense)
  let list := ",".intercalate qubits
  match op.code with
  | "measure" => none
  | "ry" =>
    let angle := match op.args with
      | a :: _ => a.text
      | [] => ""
    some ("ry(" ++ angle ++ ") " ++ list ++ ";")
  | "barrier" => some (if qubits.isEmpty then "barrier q;" else "barrier " ++ list ++ ";")
  | code => some (code ++ " " ++ list ++ ";")

/-- The measurement of a qubit into a classical bit, when the qubit has a dense number. -/
def measureLine? (dense : Table Qubit Nat) (bit : Nat) (q : Qubit) : Option String :=
  (dense.find? q).map fun index => s!"measure q[{index}] -> c[{bit}];"

def header (dense : Table Qubit Nat) (measured : List Qubit) : List String :=
  ["OPENQASM 2.0;", "include \"qelib1.inc\";", s!"qreg q[{dense.size}];",
    s!"creg c[{measured.length}];"]

def render (ops : List NativeOp) (dense : Table Qubit Nat) (measured : List Qubit) : String :=
  "\n".intercalate (header dense measured ++ ops.filterMap (opLine? dense) ++
    measured.zipIdx.filterMap fun m => measureLine? dense m.2 m.1)

end LazyCast.Qasm
