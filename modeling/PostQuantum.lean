import PostQuantum.Bytes
import PostQuantum.Word
import PostQuantum.BinaryField
import PostQuantum.BinaryField.Nibble
import PostQuantum.Poly
import PostQuantum.Keccak
import PostQuantum.X25519
import PostQuantum.MLKEM.Compression
import PostQuantum.MLKEM.Packing
import PostQuantum.MLKEM.Encryption
import PostQuantum.Entropy
import PostQuantum.Kem.Error
import PostQuantum.MLKEM.Keys
import PostQuantum.XWing
import PostQuantum.Kem.Key
import PostQuantum.Kem.Scheme
import PostQuantum.Kem.Schemes
import PostQuantum.Signature.Error
import PostQuantum.Signature.Scheme
import PostQuantum.Signature.Toy
import PostQuantum.Session.ByteExpr
import PostQuantum.Session.Names
import PostQuantum.Kem.Session
import PostQuantum.Signature.Session
import PostQuantum.Session.Registration
import PostQuantum.Proofs.MLKEM.Roots
import PostQuantum.Proofs.MLKEM.Tables
import PostQuantum.Proofs.Negacyclic
import PostQuantum.Proofs.MLKEM.Layers
import PostQuantum.Proofs.MLKEM.Evaluation
import PostQuantum.Proofs.MLKEM.Factors
import PostQuantum.Proofs.MLKEM.Homomorphism
import PostQuantum.Proofs.MLKEM.Transform
import PostQuantum.Proofs.Bits
import PostQuantum.Proofs.MLKEM.Packing
import PostQuantum.Proofs.MLKEM.Encodings
import PostQuantum.Proofs.MLKEM.BitLevel
import PostQuantum.Proofs.MLKEM.Compression
import PostQuantum.Proofs.MLKEM.Sampling
import PostQuantum.Proofs.MLKEM.Encryption
import PostQuantum.Proofs.MLKEM.Decryption
import PostQuantum.Proofs.MLKEM.Ciphertexts
import PostQuantum.Proofs.MLKEM.Adjoint
import PostQuantum.Proofs.MLKEM.Decapsulation
import PostQuantum.Proofs.MLKEM.InPlace
import PostQuantum.Proofs.MLKEM.Schoolbook
import PostQuantum.Proofs.Reading
import PostQuantum.Proofs.MLKEM.Grammar
import PostQuantum.Proofs.XWing.Keys
import PostQuantum.Proofs.XWing.RoundTrip
import PostQuantum.Proofs.XWing.Equality
import PostQuantum.Proofs.Kem.Provenance
import PostQuantum.Proofs.Checked
import PostQuantum.Proofs.PrimeField.Exact
import PostQuantum.Proofs.PrimeField.Power
import PostQuantum.Proofs.BinaryField.Polynomial
import PostQuantum.Proofs.BinaryField.Reduction
import PostQuantum.Proofs.BinaryField.Ring
import PostQuantum.Proofs.BinaryField.Power
import PostQuantum.Proofs.BinaryField.Field
import PostQuantum.Proofs.BinaryField.Frobenius
import PostQuantum.Proofs.BinaryField.Inversion
import PostQuantum.Proofs.BinaryField.Lanes
import PostQuantum.Proofs.BinaryField.Pairs
import PostQuantum.Proofs.ZeroInverse
import PostQuantum.Proofs.MLKEM.Candidates
import PostQuantum.Proofs.MLKEM.Rejection
import PostQuantum.Proofs.Kem.Equality
import PostQuantum.Proofs.Kem.Soundness
import PostQuantum.Proofs.Kem.Contract
import PostQuantum.Proofs.Kem.Randomness
import PostQuantum.Proofs.Registry
import PostQuantum.Proofs.InRange
import PostQuantum.Proofs.MLKEM.Exact.Transform
import PostQuantum.Proofs.MLKEM.Exact.Packing
import PostQuantum.Proofs.MLKEM.Exact.Sampling
import PostQuantum.Proofs.MLKEM.Noise
import PostQuantum.Proofs.MLKEM.Exact.Encryption
import PostQuantum.Proofs.MLKEM.SchoolbookBits
import PostQuantum.Proofs.Guarded
import PostQuantum.Proofs.ConstantTime
import PostQuantum.Proofs.MLKEM.Exact.Keys
import PostQuantum.Proofs.XWing.Exact
import PostQuantum.Proofs.Kem.Exact
