import AbstractBits.Construction
import AbstractBits.Expr.Concrete
import AbstractBits.Proofs.Interval.OperandRoundTrip
import AbstractBits.Main
import AbstractBits.Proofs.Progression.Lattice
import AbstractBits.Proofs.Progression.Image
import AbstractBits.Proofs.Interval.ByteOrder
import AbstractBits.Proofs.Interval.Lattice
import AbstractBits.Proofs.Interval.Transfer
import AbstractBits.Proofs.Interval.Bounds
import AbstractBits.Proofs.IntervalSet.Members
import AbstractBits.Proofs.ValueSet.Lattice
import AbstractBits.Proofs.AbstractValue.Lattice
import AbstractBits.Proofs.IntervalSet.Transfer
import AbstractBits.Proofs.ValueSet.Transfer
import AbstractBits.Proofs.ValueSet.Insertion
import AbstractBits.Proofs.AbstractValue.ByteOrder
import AbstractBits.Proofs.Expr.LatticeCall
import AbstractBits.Proofs.Interval.Widening
import AbstractBits.Proofs.AbstractValue.Widening
import AbstractBits.Proofs.AbstractValue.Transfer
import AbstractBits.Proofs.Expr.Operands
import AbstractBits.Proofs.Expr.Application
import AbstractBits.Proofs.Expr.Progress
import AbstractBits.Proofs.Expr.Soundness
import AbstractBits.Proofs.Construction
import AbstractBits.Proofs.Query.Bounds
import AbstractBits.Proofs.Interval.NormalForm
import AbstractBits.Proofs.ValueSet.Occupied
import AbstractBits.Proofs.IntervalSet.Distinct
import AbstractBits.Proofs.AbstractValue.Involution
import AbstractBits.Proofs.AbstractValue.OperandOrder
import AbstractBits.Proofs.Expr.OperandOrder
import AbstractBits.Proofs.Expr.UndecidedChoice
import AbstractBits.Proofs.Expr.ConstantSpelling
import AbstractBits.Proofs.IntervalSet.ExactVerdict
import AbstractBits.Proofs.Expr.Dispatch
import AbstractBits.Proofs.Expr.Compositional
import AbstractBits.Proofs.Expr.ReadOnce
import AbstractBits.Proofs.Interval.Names
import AbstractBits.Proofs.IntervalSet.Names
import AbstractBits.Proofs.ValueSet.Names
import AbstractBits.Proofs.AbstractValue.Names
import AbstractBits.Proofs.Expr.Names
import AbstractBits.Proofs.Expr.Congruence
import AbstractBits.Proofs.Query.Names
import AbstractBits.Proofs.Interval.Inclusion
import AbstractBits.Proofs.Interval.Semilattice
import AbstractBits.Proofs.Interval.Intersection
import AbstractBits.Proofs.Expr.WideningLoop
import AbstractBits.Proofs.Progression.Monotone
import AbstractBits.Proofs.Interval.Monotone
import AbstractBits.Proofs.Progression.Concatenation
import AbstractBits.Proofs.Interval.ExactImage
import AbstractBits.Proofs.Expr.ShiftAmount
import AbstractBits.Proofs.Interval.Concatenation
import AbstractBits.Proofs.Expr.Concatenation
import AbstractBits.Proofs.Progression.Enumeration
import AbstractBits.Proofs.Interval.Enumeration
import AbstractBits.Proofs.Query.Rounds
import AbstractBits.Proofs.AbstractValue.BitOperators
import AbstractBits.Proofs.Query.Membership
import AbstractBits.Proofs.Expr.BitOperators
import AbstractBits.Proofs.Query.Sampling
import AbstractBits.Proofs.ValueSet.InsertionOrder
import AbstractBits.Proofs.Expr.Constructors
import AbstractBits.Proofs.IntervalSet.ExtensionWidth
import AbstractBits.Proofs.Interval.Checked
import AbstractBits.Proofs.CommandLine.Configuration
import AbstractBits.Proofs.Interval.Unambiguous
