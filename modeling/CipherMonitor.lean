import CipherMonitor.Action
import CipherMonitor.Automaton.Basic
import CipherMonitor.Automaton.Exploration
import CipherMonitor.Automaton.Format
import CipherMonitor.Automaton.Minimization
import CipherMonitor.Automaton.Numbering
import CipherMonitor.Automaton.Refinement
import CipherMonitor.Automaton.Reversal
import CipherMonitor.Automaton.Sample
import CipherMonitor.Automaton.Worklist
import CipherMonitor.Binary64.Basic
import CipherMonitor.Binary64.Numeral
import CipherMonitor.Binary64.Shortest
import CipherMonitor.Bootstrap.BlindRotation
import CipherMonitor.Bootstrap.Circuit
import CipherMonitor.Bridge.Amplification
import CipherMonitor.Bridge.Conversion
import CipherMonitor.Bridge.Descent
import CipherMonitor.Bytes.Decoder
import CipherMonitor.Bytes.LittleEndian
import CipherMonitor.Ckks.Arithmetic
import CipherMonitor.Ckks.Ciphertext
import CipherMonitor.Ckks.Format
import CipherMonitor.Ckks.Parameters
import CipherMonitor.Ckks.Plaintext
import CipherMonitor.Ckks.Program
import CipherMonitor.Ckks.Relinearization
import CipherMonitor.Config.Bridge
import CipherMonitor.Config.Format
import CipherMonitor.Config.Monitor
import CipherMonitor.Encrypted.StateVector
import CipherMonitor.Encrypted.WeightVector
import CipherMonitor.Fault
import CipherMonitor.Fourier
import CipherMonitor.Gadget
import CipherMonitor.Ggsw
import CipherMonitor.Glwe.Basic
import CipherMonitor.Glwe.PrivateKeySwitch
import CipherMonitor.Json.Numeral
import CipherMonitor.Json.Quoted
import CipherMonitor.Json.Token
import CipherMonitor.Json.Value
import CipherMonitor.Linear
import CipherMonitor.Lwe.Basic
import CipherMonitor.Lwe.Format
import CipherMonitor.Lwe.KeySwitch
import CipherMonitor.Monitor.Pipeline
import CipherMonitor.Monitor.Prefix
import CipherMonitor.Monitor.Stream
import CipherMonitor.Monitor.Suffix
import CipherMonitor.Number
import CipherMonitor.Poly.Basic
import CipherMonitor.Poly.Modular
import CipherMonitor.Poly.Schoolbook
import CipherMonitor.Poly.Torus
import CipherMonitor.Predicate.Basic
import CipherMonitor.Predicate.Encrypted
import CipherMonitor.Predicate.Plain
import CipherMonitor.Proofs.Action
import CipherMonitor.Proofs.Automaton.Description
import CipherMonitor.Proofs.Automaton.Exploration
import CipherMonitor.Proofs.Automaton.Format
import CipherMonitor.Proofs.Automaton.Minimization
import CipherMonitor.Proofs.Automaton.Numbering
import CipherMonitor.Proofs.Automaton.Passes
import CipherMonitor.Proofs.Automaton.Refinement
import CipherMonitor.Proofs.Automaton.Reversal
import CipherMonitor.Proofs.Automaton.Sample
import CipherMonitor.Proofs.Automaton.Worklist
import CipherMonitor.Proofs.Binary64.Scaling
import CipherMonitor.Proofs.Bootstrap.BlindRotation
import CipherMonitor.Proofs.Bootstrap.Circuit
import CipherMonitor.Proofs.Bridge.Amplification
import CipherMonitor.Proofs.Bridge.Contract
import CipherMonitor.Proofs.Bridge.Descent
import CipherMonitor.Proofs.Bridge.Order
import CipherMonitor.Proofs.Bridge.Reduction
import CipherMonitor.Proofs.Bytes.Decoder
import CipherMonitor.Proofs.Ckks.Arithmetic
import CipherMonitor.Proofs.Ckks.Encryption
import CipherMonitor.Proofs.Ckks.Format
import CipherMonitor.Proofs.Ckks.KeyGeneration
import CipherMonitor.Proofs.Ckks.Levels
import CipherMonitor.Proofs.Ckks.ModulusSwitch
import CipherMonitor.Proofs.Ckks.Phase
import CipherMonitor.Proofs.Ckks.Position
import CipherMonitor.Proofs.Ckks.Program
import CipherMonitor.Proofs.Ckks.Relinearization
import CipherMonitor.Proofs.Ckks.Rescaling
import CipherMonitor.Proofs.Ckks.Safety
import CipherMonitor.Proofs.Config.Bridge
import CipherMonitor.Proofs.Config.Monitor
import CipherMonitor.Proofs.Encrypted.Conservation
import CipherMonitor.Proofs.Encrypted.StateVector
import CipherMonitor.Proofs.Encrypted.WeightVector
import CipherMonitor.Proofs.FullBlocks
import CipherMonitor.Proofs.Gadget
import CipherMonitor.Proofs.Gadget.Decomposition
import CipherMonitor.Proofs.Gadget.Width
import CipherMonitor.Proofs.Ggsw.Encryption
import CipherMonitor.Proofs.Ggsw.ExternalProduct
import CipherMonitor.Proofs.Glwe.Combination
import CipherMonitor.Proofs.Glwe.Encryption
import CipherMonitor.Proofs.Glwe.Phase
import CipherMonitor.Proofs.Glwe.PrivateKeySwitch
import CipherMonitor.Proofs.History
import CipherMonitor.Proofs.Json.Token
import CipherMonitor.Proofs.Json.Value
import CipherMonitor.Proofs.Linear
import CipherMonitor.Proofs.Lwe.Encryption
import CipherMonitor.Proofs.Lwe.Format
import CipherMonitor.Proofs.Lwe.KeySwitch
import CipherMonitor.Proofs.Monitor.Block
import CipherMonitor.Proofs.Monitor.Failure
import CipherMonitor.Proofs.Monitor.Offline
import CipherMonitor.Proofs.Monitor.Pipeline
import CipherMonitor.Proofs.Monitor.Plain
import CipherMonitor.Proofs.Monitor.Prefix
import CipherMonitor.Proofs.Monitor.Repetition
import CipherMonitor.Proofs.Monitor.Stream
import CipherMonitor.Proofs.Monitor.Suffix
import CipherMonitor.Proofs.Outcome
import CipherMonitor.Proofs.Poly.Bound
import CipherMonitor.Proofs.Poly.Bytes
import CipherMonitor.Proofs.Poly.Convolution
import CipherMonitor.Proofs.Poly.Product
import CipherMonitor.Proofs.Poly.Residue
import CipherMonitor.Proofs.Poly.Rotation
import CipherMonitor.Proofs.Poly.Value
import CipherMonitor.Proofs.Predicate.Alignment
import CipherMonitor.Proofs.Predicate.Change
import CipherMonitor.Proofs.Predicate.Evaluation
import CipherMonitor.Proofs.Predicate.Memory
import CipherMonitor.Proofs.Predicate.Safety
import CipherMonitor.Proofs.Safety
import CipherMonitor.Proofs.Source.Draw
import CipherMonitor.Proofs.Source.Shuffle
import CipherMonitor.Proofs.Source.Words
import CipherMonitor.Proofs.Stream.Device
import CipherMonitor.Proofs.Stream.Framing
import CipherMonitor.Proofs.Stream.Payload
import CipherMonitor.Proofs.Stream.Samples
import CipherMonitor.Proofs.Torus
import CipherMonitor.Proofs.Torus.Circle
import CipherMonitor.Proofs.Torus.Sign
import CipherMonitor.Proofs.Torus.Wide
import CipherMonitor.Source.Basic
import CipherMonitor.Source.ChaCha
import CipherMonitor.Source.Normal
import CipherMonitor.Source.Secret
import CipherMonitor.Source.Ziggurat
import CipherMonitor.Stream.Device
import CipherMonitor.Stream.Plain
import CipherMonitor.Stream.Record
import CipherMonitor.Text.CharClass
import CipherMonitor.Text.Quoted
import CipherMonitor.Tfhe.Parameters
import CipherMonitor.Torus
