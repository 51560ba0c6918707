import TypedWasm.Source.Decimal
import TypedWasm.Proofs.Soundness
import TypedWasm.Proofs.Exports
import TypedWasm.Proofs.Usage.Units
import TypedWasm.Proofs.Unchecked.Units
import TypedWasm.Proofs.Binary.Represented
import TypedWasm.Proofs.Scalar.Correctness
import TypedWasm.Proofs.Numbers.Agreement
import TypedWasm.Proofs.Incremental
import TypedWasm.Proofs.Exact.Allocation
import TypedWasm.Proofs.Exact.Elements
import TypedWasm.Proofs.Exact.Dictionaries
import TypedWasm.Proofs.Typed.Sessions
import TypedWasm.Proofs.Json.RoundTrip
import TypedWasm.Proofs.Exact.Exhaustion
import TypedWasm.Proofs.Integers.TupleIndices
import TypedWasm.Proofs.Binary.Faults
import TypedWasm.Proofs.Fuel
import TypedWasm.Proofs.Listings
import TypedWasm.Proofs.Temporaries
import TypedWasm.Proofs.Positional
