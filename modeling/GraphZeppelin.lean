import GraphZeppelin.Parity
import GraphZeppelin.Connectivity
import GraphZeppelin.ParentForest
import GraphZeppelin.Loop
import GraphZeppelin.Types
import GraphZeppelin.Stream
import GraphZeppelin.Sketch
import GraphZeppelin.SketchLinearity
import GraphZeppelin.Supernode
import GraphZeppelin.Summary
import GraphZeppelin.Graph
import GraphZeppelin.Boruvka
import GraphZeppelin.BoruvkaRound
import GraphZeppelin.BoruvkaTermination
import GraphZeppelin.Queries
import GraphZeppelin.SpanningForest
import GraphZeppelin.Ingest
import GraphZeppelin.BoruvkaCorrect
import GraphZeppelin.BoruvkaSamples
import GraphZeppelin.Dsu
import GraphZeppelin.Bytes
import GraphZeppelin.BinaryStream
import GraphZeppelin.SketchBinary
import GraphZeppelin.SupernodeBinary
import GraphZeppelin.BinaryStreamMT
import GraphZeppelin.GraphBinary
import GraphZeppelin.StreamReaders
import GraphZeppelin.BoruvkaRestore
import GraphZeppelin.Session
import GraphZeppelin.SessionQueries
import GraphZeppelin.Backups
import GraphZeppelin.Simulation
import GraphZeppelin.ConcreteSession
